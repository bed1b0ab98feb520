import Ubft.Consensus.Deployment

/-!
# Consensus — the NewViews accepted

`handleNewView` checks the certificates of a NewView and nothing else: neither who sent it and
from where, nor which replicas and which view the certificates are about.  `Proper` is what it
leaves to the sender, and `newViewSound_iff` says that it is what is missing.
-/

namespace Ubft.Consensus

open Certifier (Certificate)

variable {cfg : Config} {s : Consensus} {sender : Nat} {m : NewViewMessage}

/-- The certificate of the entry is about a known replica and is valid. -/
def Verified (cfg : Config) (s : Consensus) (e : VcCertificateEntry) (c : Certificate SerializedState) :
    Prop :=
  ∃ r, cfg.ids.idxOf? e.replicaId = some r ∧
    (s.vcStateCertifiers r).check cfg.vcStateCrypto c = .ok true

/-- What a NewView stands for: the leader of its view, on its way there, has the certificates of
a quorum of replicas about the view before. -/
structure NewViewSound (cfg : Config) (s : Consensus) (sender : Nat) (m : NewViewMessage) : Prop where
  leader : cfg.leader m.view = cfg.idOf sender
  atView : (s.states sender).atView ≤ m.view
  quorum : m.vcCertificates.length = cfg.quorum
  distinct : (m.vcCertificates.map (·.replicaId)).Nodup
  certified : ∀ e ∈ m.vcCertificates, ∃ c, e.certificate = some c ∧ Verified cfg s e c ∧
    c.index + 1 = m.view

/-- What a correct sender sees to. -/
structure Proper (cfg : Config) (s : Consensus) (sender : Nat) (m : NewViewMessage) : Prop where
  leader : cfg.leader m.view = cfg.idOf sender
  atView : (s.states sender).atView ≤ m.view
  distinct : (m.vcCertificates.map (·.replicaId)).Nodup
  /-- A debug build throws at an unknown replica. -/
  known : cfg.ndebug = true → ∀ e ∈ m.vcCertificates, e.replicaId ∈ cfg.ids
  index : ∀ e ∈ m.vcCertificates, ∀ c ∈ e.certificate, c.index + 1 = m.view

theorem mem_ids_of_idxOf? {id : ProcId} {r : Nat} (h : cfg.ids.idxOf? id = some r) :
    id ∈ cfg.ids := by
  by_contra hno
  rw [List.idxOf?_eq_none_iff.mpr hno] at h
  cases h

/-- The rank of a replica that a debug build would find. -/
theorem rankOf_known {id : ProcId} {r : Nat} (h : rankOf cfg id = .ok r)
    (hk : cfg.ndebug = true → id ∈ cfg.ids) : cfg.ids.idxOf? id = some r := by
  unfold rankOf at h
  cases hr : cfg.ids.idxOf? id with
  | some r' => rw [hr] at h; cases h; rfl
  | none =>
      rw [hr] at h
      simp only at h
      split at h
      · next hn => exact absurd (hk hn) (List.idxOf?_eq_none_iff.mp hr)
      · cases h

theorem lift_eq_ok {α : Type} {x : Except Certifier.Error α} {a : α} :
    lift x = .ok a ↔ x = .ok a := by
  cases x with
  | error e => exact ⟨(nomatch ·), (nomatch ·)⟩
  | ok b => exact ⟨fun h => by cases h; rfl, fun h => by cases h; rfl⟩

/-- An entry that passes parses, and its certificate is valid for a replica of some rank. -/
theorem checkEntry_eq_ok_true {e : VcCertificateEntry} (h : checkEntry cfg s e = .ok true) :
    ∃ c r, e.certificate = some c ∧ rankOf cfg e.replicaId = .ok r ∧
      (s.vcStateCertifiers r).check cfg.vcStateCrypto c = .ok true := by
  unfold checkEntry at h
  split at h
  · cases h
  · next c hc =>
      obtain ⟨r, hr, h⟩ := bind_eq_ok.mp h
      exact ⟨c, r, hc, hr, lift_eq_ok.mp h⟩

theorem isByzantineNewView_eq_ok_false {es : List VcCertificateEntry}
    (h : isByzantineNewView cfg s es = .ok false) : ∀ e ∈ es, checkEntry cfg s e = .ok true := by
  induction es with
  | nil => exact fun _ he => nomatch he
  | cons e es ih =>
      rw [isByzantineNewView] at h
      split at h
      · cases h
      · cases h
      · next he =>
          intro e' he'
          rcases List.mem_cons.mp he' with rfl | he'
          · exact he
          · exact ih h e' he'

/-- A NewView whose handling goes on has the certificates of a quorum, each of which passed. -/
theorem handleNewView_cases {s' : Consensus} {cmds : List Cmd}
    (h : handleNewView cfg s sender m = .ok (s', cmds)) :
    s' = s ∧ (m.vcCertificates.length ≠ cfg.quorum ∧ cmds = [] ∨
      m.vcCertificates.length = cfg.quorum ∧ cmds = [.catchUp sender m] ∧
        ∀ e ∈ m.vcCertificates, checkEntry cfg s e = .ok true) := by
  unfold handleNewView at h
  split at h
  · next hq => cases h; exact ⟨rfl, .inl ⟨hq, rfl⟩⟩
  · next hq =>
      split at h
      · cases h
      · cases h
      · next hb =>
          cases h
          exact ⟨rfl, .inr ⟨not_not.mp hq, rfl, isByzantineNewView_eq_ok_false hb⟩⟩

/-- **What is accepted.**  A NewView handled without an error is sound exactly when it is proper. -/
theorem newViewSound_iff (h : handleNewView cfg s sender m = .ok (s, [.catchUp sender m])) :
    NewViewSound cfg s sender m ↔ Proper cfg s sender m := by
  obtain ⟨-, ⟨-, hc⟩ | ⟨hq, -, hall⟩⟩ := handleNewView_cases h
  · cases hc
  constructor
  · intro hs
    refine ⟨hs.leader, hs.atView, hs.distinct, fun _ e he => ?_, fun e he c hc => ?_⟩
    · obtain ⟨c, -, ⟨r, hr, -⟩, -⟩ := hs.certified e he
      exact mem_ids_of_idxOf? hr
    · obtain ⟨c', hc', -, hi⟩ := hs.certified e he
      rw [hc'] at hc
      exact Option.some.inj hc ▸ hi
  · intro hp
    refine ⟨hp.leader, hp.atView, hq, hp.distinct, fun e he => ?_⟩
    obtain ⟨c, r, hc, hr, hv⟩ := checkEntry_eq_ok_true (hall e he)
    exact ⟨c, hc, ⟨r, rankOf_known hr fun hn => hp.known hn e he, hv⟩, hp.index e he c hc⟩

/-! ### A NewView of anyone, about anything -/

namespace Example

open Deployment

/-- Replica 0 of three. -/
def three : Config := replica 3 0 4 2 (by decide)

/-- Replica 1 does not lead view 2, and has one certificate of view 0 twice. -/
def unsound : NewViewMessage :=
  ⟨2, [vcEntry 2 0 (emptyState 0) [0, 1], vcEntry 2 0 (emptyState 0) [0, 1]]⟩

/-- Replica 1 leads view 1, and replicas 0 and 1 left view 0. -/
def sound : NewViewMessage :=
  ⟨1, [vcEntry 0 0 (emptyState 0) [1, 2], vcEntry 1 0 (emptyState 0) [1, 2]]⟩

theorem handled_unsound : handleNewView three (.start three allKnown) 0 unsound =
    .ok (.start three allKnown, [.catchUp 0 unsound]) := by
  have h : isByzantineNewView three (.start three allKnown) unsound.vcCertificates =
      .ok false := by decide +kernel
  unfold handleNewView
  rw [if_neg (by decide), h]

theorem handled_sound : handleNewView three (.start three allKnown) 0 sound =
    .ok (.start three allKnown, [.catchUp 0 sound]) := by
  have h : isByzantineNewView three (.start three allKnown) sound.vcCertificates =
      .ok false := by decide +kernel
  unfold handleNewView
  rw [if_neg (by decide), h]

end Example

/-- Replica 0, in its initial state, accepts `unsound`. -/
theorem newView_not_sound :
    ¬ ∀ (cfg : Config) (m : Machine), Reachable (Machine.Init cfg) (Machine.Step cfg) Always m →
        ∀ (sender : Nat) (nv : NewViewMessage),
          handleNewView cfg m.core sender nv = .ok (m.core, [.catchUp sender nv]) →
            NewViewSound cfg m.core sender nv := by
  intro h
  have hs := h Example.three ⟨.start Example.three Deployment.allKnown, []⟩ (.init ⟨_, rfl⟩) 0
    Example.unsound Example.handled_unsound
  exact absurd hs.leader (by decide)

/-- The NewView of the leader of view 1. -/
theorem newViewSound_sound :
    NewViewSound Example.three (.start Example.three Deployment.allKnown) 0 Example.sound := by
  refine (newViewSound_iff Example.handled_sound).mpr ⟨by decide, by decide, by decide,
    fun _ => by decide, ?_⟩
  intro e he c hc
  simp only [Example.sound, Deployment.vcEntry, List.mem_cons, List.not_mem_nil, or_false] at he
  rcases he with rfl | rfl
  · cases hc; rfl
  · cases hc; rfl

end Ubft.Consensus

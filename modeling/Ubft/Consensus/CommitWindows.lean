import Ubft.Consensus.CheckpointBounds
import Ubft.Consensus.NewViewLayout

/-!
# Consensus — the commits of a window

`states[r].commits` is what a view change and a CB checkpoint serialize, in buffers made for a
window of commits.  `handleCommit` stores a commit before its certificate is verified;
`isByzantineCommit` refuses an instance above the checkpoint of the sender, but not one below it.
As long as none is below (`Confined`), the commits stay in the window the checkpoint opens
(`commits_in_window`).
-/

namespace Ubft.Consensus

open Certifier (Certificate MessageData)

variable {cfg : Config} {s s' : Consensus} {inp : Input}

/-! ### Sizes -/

namespace CbCheckpoint

/-- `offsetof(Layout, valid_values)`. -/
def validValuesOffset : Nat := 104

/-- `ValidValue::bufferSize`. -/
def validValueSize (maxValidValueSize : Nat) : Nat := 16 + maxValidValueSize

/-- The bytes of a CB checkpoint, with its valid values and its commits. -/
def bufferSize (nbValidValues maxValidValueSize nbCommits maxProposalSize : Nat) : Nat :=
  validValuesOffset + nbValidValues * validValueSize maxValidValueSize +
    nbCommits * BroadcastCommit.size maxProposalSize

/-- The size of the buffer that the constructor allocates. -/
def size (c : CbCheckpoint) : Nat :=
  bufferSize c.validValues.length c.maxValidValueSize c.commits.length c.maxProposalSize

theorem bufferSize_mono {n n' m m' k k' p p' : Nat} (hn : n ≤ n') (hm : m ≤ m') (hk : k ≤ k')
    (hp : p ≤ p') : bufferSize n m k p ≤ bufferSize n' m' k' p' :=
  Nat.add_le_add
    (Nat.add_le_add_left (Nat.mul_le_mul hn (Nat.add_le_add_left hm _)) _)
    (Nat.mul_le_mul hk (Nat.add_le_add_left hp _))

end CbCheckpoint

/-- The commits of a replica are in the range of its checkpoint, and what is serialized of them
fits the sizes the certifiers are built for. -/
structure Windowed (cfg : Config) (x : ReplicaState) : Prop where
  keys : ∀ i b, x.commits.find? i = some b → x.checkpoint.contains i
  size : x.commits.size ≤ cfg.window
  state : ∀ junk view, (SerializedState.serialize junk view x.commits).length ≤
    SerializedState.bufferSize cfg.window cfg.maxProposalSize
  /-- The valid values are no commits. -/
  cb : x.checkpointCb.validValues.length ≤ cfg.window →
    x.checkpointCb.maxValidValueSize ≤ cfg.maxProposalSize →
      x.checkpointCb.size ≤
        CbCheckpoint.bufferSize cfg.window cfg.maxProposalSize cfg.window cfg.maxProposalSize

/-! ### The conditions -/

/-- A certificate of the checkpoint that opens a window from its index on. -/
def Opens (cfg : Config) (c : Certificate Checkpoint) : Prop :=
  c.message.low = c.index ∧ c.message.high = c.message.low + cfg.window

instance (c : Certificate Checkpoint) : Decidable (Opens cfg c) :=
  inferInstanceAs (Decidable (_ ∧ _))

/-- A commit is not below the checkpoint of its sender, and a valid certificate is one of a
checkpoint that opens a window from its index on. -/
def Confined (cfg : Config) (s : Consensus) (r : Nat) : Message → Prop
  | .commit (some c) => (s.states r).checkpoint.low ≤ (unpack c.index).2
  | .checkpoint (some c) => Verifies cfg s c → Opens cfg c
  | _ => True

instance (s : Consensus) (r : Nat) : (m : Message) → Decidable (Confined cfg s r m)
  | .commit (some _) => inferInstanceAs (Decidable ((s.states r).checkpoint.low ≤ _))
  | .checkpoint (some c) => inferInstanceAs (Decidable (Verifies cfg s c → Opens cfg c))
  | .commit none | .checkpoint none | .malformed | .prepare _ | .sealView | .newView _ =>
      .isTrue trivial

/-- So are those that a step hands over. -/
def Confines (cfg : Config) (m : Machine) (l : Label) : Prop :=
  ∀ rm ∈ handing cfg m l, Confined cfg m.core rm.1 rm.2

instance (m : Machine) (l : Label) : Decidable (Confines cfg m l) :=
  inferInstanceAs (Decidable (∀ rm ∈ handing cfg m l, _))

/-! ### The checkpoints -/

/-- What was certified, and what is, opens a window. -/
structure Opened (cfg : Config) (x : Checkpoints) : Prop where
  certificate : Opens cfg x.certificate
  certifier : ∀ k d, x.certifier.msgTail.find? k = some d →
    d.message.low = k ∧ d.message.high = k + cfg.window
  received : ∀ r, (x.received r).low ≤ x.certificate.message.low ∧
    (x.received r).high = (x.received r).low + cfg.window

/-- The checkpoint that is still to be broadcast opens a window. -/
def Opening (cfg : Config) : Cmd → Prop
  | .broadcast (.checkpoint (some c)) => Opens cfg c
  | _ => True

/-- A checkpoint that may be adopted after that of `r`. -/
structure Follows (cfg : Config) (x : Checkpoints) (r : Nat) (c : Certificate Checkpoint) :
    Prop where
  low : (x.received r).low ≤ c.message.low
  high : c.message.high = c.message.low + cfg.window
  opens : x.certificate.message.low < c.message.low → Opens cfg c

/-- A window that begins at the index. -/
def Shape.window (cfg : Config) : Shape cfg where
  carries k c := c.low = k ∧ c.high = k + cfg.window
  low _ _ h := h.1
  opened _ _ := ⟨rfl, rfl⟩

/-- A certificate that opens a window, as a shape. -/
theorem opens_iff {c : Certificate Checkpoint} :
    Opens cfg c ↔ (Shape.window cfg).carries c.index c.message := by
  refine and_congr_right fun h => ?_
  rw [h]

theorem Confines.vouches {m : Machine} {l : Label} (h : Confines cfg m l) :
    Vouches (.window cfg) m l := by
  intro rm hrm
  have hc := h rm hrm
  obtain ⟨r, msg⟩ := rm
  change Confined cfg m.core r msg at hc
  change Vouched (.window cfg) m.core msg
  unfold Vouched
  split
  · exact fun hv => opens_iff.mp (hc hv)
  · trivial

theorem Certified.opened {x : Checkpoints} (h : Certified (.window cfg) x) : Opened cfg x :=
  ⟨opens_iff.mpr h.certificate, h.certifier, fun r => ⟨h.below r, (h.received r).2⟩⟩

theorem Opened.certified {x : Checkpoints} (h : Opened cfg x) : Certified (.window cfg) x :=
  ⟨opens_iff.mp h.certificate, h.certifier, fun r => (h.received r).1,
    fun r => ⟨rfl, (h.received r).2⟩⟩

/-- The commands that may bring one. -/
theorem announces_iff {c : Cmd} : Announces (.window cfg) c ↔ Opening cfg c := by
  unfold Opening
  split
  · exact opens_iff.symm
  · next hne =>
      unfold Announces
      split
      · next c' => exact absurd rfl (hne c')
      · rfl

/-- **An adopted checkpoint follows the one before it.** -/
theorem Receives.follows {c : Cmd} {rest : List Cmd} {r : Nat} {o : Option (Certificate Checkpoint)}
    {s₁ : Consensus} (hr : Receives cfg s inp c r (.checkpoint o) s₁)
    (h : handleCheckpoint cfg s₁ r o = .ok s') (hn : Nested cfg (c :: rest)) (hp : Opening cfg c)
    (hg : Confines cfg ⟨s, c :: rest⟩ (.exec inp)) (hs : Opened cfg s.checkpoints) :
    ∃ c', o = some c' ∧ Follows cfg s.checkpoints r c' ∧ s' = adoptCheckpoint s₁ r c' := by
  obtain ⟨c', ho, hf, he⟩ := hr.succeeds h hn (announces_iff.mpr hp) hg.vouches hs.certified
  exact ⟨c', ho, ⟨hf.low, hf.carried.2, fun hlt => opens_iff.mpr (hf.certified hlt)⟩, he⟩

/-- In every run in which certificates confine their checkpoints. -/
theorem Machine.opened_of_reachable {m : Machine}
    (h : Reachable (Init cfg) (Step cfg) (Confines cfg) m) :
    Opened cfg m.core.checkpoints ∧ ∀ c ∈ m.todo, Opening cfg c := by
  obtain ⟨hc, ha⟩ := certified_of_reachable (h.mono fun _ _ hg => Confines.vouches hg)
  exact ⟨hc.opened, fun c hm => announces_iff.mp (ha c hm)⟩

/-! ### The commits -/

/-- The commits of a stream are in the range of its checkpoint, and of a size that fits. -/
def Filed (cfg : Config) (x : Stream) : Prop :=
  ∀ i b, x.commits.find? i = some b →
    x.checkpoint.contains i ∧ b.proposal.length ≤ cfg.maxProposalSize

namespace Filed

variable {x y : Stream}

theorem of_eq (h : Filed cfg x) (hc : y.checkpoint = x.checkpoint) (hm : y.commits = x.commits) :
    Filed cfg y := by
  intro i b hi
  rw [hc]
  exact h i b (hm ▸ hi)

/-- A commit of the window is filed in it. -/
theorem commit {c : Certificate Bytes} (h : Filed cfg x)
    (hi : x.checkpoint.contains (unpack c.index).2)
    (hl : c.message.length ≤ cfg.maxProposalSize) : Filed cfg (x.commit c) := by
  intro i b hb
  change (x.commits.insert _ _).find? i = some b at hb
  rw [OrdMap.find?_insert] at hb
  split at hb
  · next he =>
      cases hb
      exact ⟨he ▸ hi, hl⟩
  · exact h i b hb

/-- What is below the checkpoint is pruned, and the range does not end before the one it had. -/
theorem adopt {c : Certificate Checkpoint} (h : Filed cfg x)
    (hh : x.checkpoint.high ≤ c.message.high) : Filed cfg (x.adopt c) := by
  intro i b hb
  change (x.commits.popWhile _).find? i = some b at hb
  rw [OrdMap.find?_popWhile] at hb
  · split at hb
    · cases hb
    · next hlt =>
        obtain ⟨hc, hl⟩ := h i b hb
        exact ⟨⟨Nat.not_lt.mp fun hlow => hlt (decide_eq_true hlow), hc.2.trans_le hh⟩, hl⟩
  · simp only [decide_eq_true_eq]
    exact fun j k hjk hk => hjk.trans hk

end Filed

/-- The checkpoints received and the commits are those of `s`. -/
def Untouched (s s' : Consensus) : Prop :=
  ∀ r, (s'.states r).checkpoint = (s.states r).checkpoint ∧
    (s'.states r).commits = (s.states r).commits

theorem Untouched.trans {s'' : Consensus} (h : Untouched s s') (h' : Untouched s' s'') :
    Untouched s s'' :=
  fun r => ⟨(h' r).1.trans (h r).1, (h' r).2.trans (h r).2⟩

/-- A stream was set to one with the same checkpoint and commits. -/
theorem untouched_of_set {r : Nat} {x : Stream} (h : s'.deduced = s.deduced.set r x)
    (hc : x.checkpoint = (s.states r).checkpoint) (hm : x.commits = (s.states r).commits) :
    Untouched s s' := by
  intro r'
  have hx := stream_of_deduced h r'
  by_cases hr : r' = r
  · subst hr
    rw [Deduced.set_streams, Function.update_self] at hx
    exact ⟨(congrArg Stream.checkpoint hx).trans hc, (congrArg Stream.commits hx).trans hm⟩
  · rw [Deduced.set_streams, Function.update_of_ne hr] at hx
    exact ⟨congrArg Stream.checkpoint hx, congrArg Stream.commits hx⟩

theorem Same.untouched (h : Same s s') : Untouched s s' := fun r =>
  ⟨congrArg Stream.checkpoint (stream_of_deduced h r),
    congrArg Stream.commits (stream_of_deduced h r)⟩

theorem Drops.untouched {c : Cmd} (h : Drops cfg s c s') : Untouched s s' := by
  have hd : ∀ (s : Consensus) (r : Nat), Untouched s (skipping s r) := by
    intro s r r'
    by_cases hr : r' = r
    · subst hr
      rw [skipping, states_modifyState_self]
      exact ⟨rfl, rfl⟩
    · rw [skipping, states_modifyState_of_ne s hr]
      exact ⟨rfl, rfl⟩
  cases h with
  | nothing => exact fun _ => ⟨rfl, rfl⟩
  | poll r => exact hd s r
  | broadcast m => exact hd (broadcasting cfg s m) _
  | propose hp => exact hd (broadcasting cfg { s with toPropose := _ } _) _

theorem Receives.untouched {c : Cmd} {r : Nat} {m : Message} {s₁ : Consensus}
    (h : Receives cfg s inp c r m s₁) : Untouched s s₁ := by
  intro r'
  obtain ⟨n, hn⟩ := h.states r'
  rw [hn]
  exact ⟨rfl, rfl⟩

/-- What a command does to the commits. -/
inductive Files (cfg : Config) (s : Consensus) (inp : Input) : Cmd → Consensus → Prop where
  | same {c : Cmd} {s' : Consensus} (h : Untouched s s') : Files cfg s inp c s'
  | commit {c : Cmd} {r : Nat} {o : Option (Certificate Bytes)} {s₁ s' : Consensus}
      (hr : Receives cfg s inp c r (.commit o) s₁) (h : handleCommit cfg s₁ r o = .ok s') :
      Files cfg s inp c s'
  | checkpoint {c : Cmd} {r : Nat} {o : Option (Certificate Checkpoint)} {s₁ s' : Consensus}
      (hr : Receives cfg s inp c r (.checkpoint o) s₁) (h : handleCheckpoint cfg s₁ r o = .ok s') :
      Files cfg s inp c s'

/-- What a message files: a Commit, a Checkpoint, or nothing. -/
theorem Receives.files {c : Cmd} {r : Nat} {m : Message} {s₁ : Consensus} {cs : List Cmd}
    (h : Receives cfg s inp c r m s₁) (hm : handleMessage cfg s₁ r m = .ok (s', cs)) :
    Files cfg s inp c s' := by
  cases m with
  | malformed => cases hm; exact .same h.untouched
  | prepare p =>
      refine .same (h.untouched.trans (untouched_of_set (deduced_handlePrepare (pure_eq_ok hm).1)
        ?_ ?_))
      · rw [Stream.prepare]
        split <;> rfl
      · rw [Stream.prepare]
        split <;> rfl
  | commit o => exact .commit h (pure_eq_ok hm).1
  | checkpoint o => exact .checkpoint h (pure_eq_ok hm).1
  | sealView => cases hm; exact .same h.untouched
  | newView nv =>
      obtain ⟨rfl, -⟩ := handleNewView_cases hm
      exact .same h.untouched

/-- **What a command does to the commits.** -/
theorem exec_files {c : Cmd} {cs : List Cmd} (h : exec cfg s inp c = .ok (s', cs)) :
    Files cfg s inp c s' := by
  by_cases hr : c.receives = true
  · rcases exec_receives h (Cmd.receives_cases hr) with ⟨hd, -⟩ | ⟨r, m, s₁, cs₀, hrec, hm, -⟩
    · exact .same hd.untouched
    · exact hrec.files hm
  · cases hx : exec_moves h with
    | same hs _ => exact .same hs.untouched
    | receive hrec hm => exact hrec.files hm
    | spin =>
        -- only `spin` leads to itself without a message
        cases leads_of_spawns (exec_spawns h) List.mem_cons_self with
        | delivers hc _ _ => exact absurd (Cmd.receives_of_delivers hc) hr
        | spin => cases h; exact .same fun _ => ⟨rfl, rfl⟩
    | «seal» hs => exact .same (untouched_of_set (deduced_sealView hs) rfl rfl)
    | @accept r m _ ha =>
        refine .same (untouched_of_set (deduced_acceptNewView ha) ?_ ?_)
        · rw [Stream.newView]
          split <;> rfl
        · rw [Stream.newView]
          split <;> rfl

/-- A checkpoint moves the window, and the commits below it go. -/
theorem filed_exec {c : Cmd} {cs rest : List Cmd} (h : exec cfg s inp c = .ok (s', cs))
    (hn : Nested cfg (c :: rest)) (hp : Opening cfg c)
    (hg : Confines cfg ⟨s, c :: rest⟩ (.exec inp)) (hs : Opened cfg s.checkpoints)
    (hf : ∀ r, Filed cfg (s.states r).stream) : ∀ r, Filed cfg (s'.states r).stream := by
  -- one stream was set, after the message was received
  have of_set : ∀ {s₁ : Consensus} {r : Nat} {x : Stream}, Untouched s s₁ →
      s'.deduced = s₁.deduced.set r x → Filed cfg x → ∀ r', Filed cfg (s'.states r').stream := by
    intro s₁ r x hu hd hx r'
    rw [stream_of_deduced hd]
    by_cases hr : r' = r
    · rw [hr, Deduced.set_streams, Function.update_self]
      exact hx
    · rw [Deduced.set_streams, Function.update_of_ne hr]
      exact (hf r').of_eq (hu r').1 (hu r').2
  cases exec_files h with
  | same hu => exact fun r => (hf r).of_eq (hu r).1 (hu r).2
  | @commit r o s₁ _ hr h =>
      obtain ⟨c', x, rfl, hb, -, hl, -⟩ := handleCommit_cases h
      obtain ⟨_, he, hd⟩ := deduced_handleCommit h
      cases he
      have hu := hr.untouched r
      have hlow := hg (r, .commit (some c')) (handing_of_receives hr rest)
      have hx : Filed cfg (s₁.states r).stream := (hf r).of_eq hu.1 hu.2
      refine of_set hr.untouched hd (hx.commit ⟨?_, ?_⟩ hl)
      · change (s₁.states r).checkpoint.low ≤ _
        rw [hu.1]
        exact hlow
      · exact Nat.not_le.mp (not_or.mp hb).1
  | @checkpoint r o s₁ _ hr h =>
      obtain ⟨c', rfl, hfol, -⟩ := hr.follows h hn hp hg hs
      obtain ⟨_, he, hd⟩ := deduced_handleCheckpoint h
      cases he
      have hu := hr.untouched r
      have hx : Filed cfg (s₁.states r).stream := (hf r).of_eq hu.1 hu.2
      refine of_set hr.untouched hd (hx.adopt ?_)
      change (s₁.states r).checkpoint.high ≤ c'.message.high
      calc (s₁.states r).checkpoint.high
          = (s.states r).checkpoint.low + cfg.window := by rw [hu.1]; exact (hs.received r).2
        _ ≤ c'.message.low + cfg.window := Nat.add_le_add_right hfol.low _
        _ = c'.message.high := hfol.high.symm

/-- **Every commit of a stream is in its window.** -/
theorem Machine.filed_of_reachable {m : Machine}
    (h : Reachable (Init cfg) (Step cfg) (Confines cfg) m) (r : Nat) :
    Filed cfg (m.core.states r).stream := by
  refine h.induct (P := fun m => ∀ r, Filed cfg (m.core.states r).stream) (fun m hm => ?_)
    (fun m l m' hr hf hg hs => ?_) r
  · obtain ⟨requestLog, rfl⟩ := hm
    exact fun r i b hb => (nomatch hb)
  · rcases step_cases hs with ⟨c, s, cs, -, -, hc, rfl⟩ | ⟨inp, c, rest, s, cs, rfl, hm, he, rfl⟩ |
      ⟨s, hb, rfl⟩
    · intro r
      have hu := (same_call hc).untouched r
      exact (hf r).of_eq hu.1 hu.2
    · have hn := nested_of_reachable hr
      obtain ⟨ho, ht⟩ := opened_of_reachable hr
      obtain ⟨core, todo⟩ := m
      subst hm
      exact filed_exec he hn (ht c List.mem_cons_self) hg ho hf
    · intro r
      have hu := (same_background hb).untouched r
      exact (hf r).of_eq hu.1 hu.2

/-- **Commits stay in the window**, as long as none is below the checkpoint of its sender and a
valid checkpoint certificate opens a window: those of a replica are in the range of its
checkpoint, and fit what is serialized of them. -/
theorem commits_in_window {m : Machine}
    (h : Reachable (Machine.Init cfg) (Machine.Step cfg) (Confines cfg) m) (r : Nat) :
    Windowed cfg (m.core.states r) := by
  have hf := Machine.filed_of_reachable h r
  have hh := ((Machine.opened_of_reachable h).1.received r).2
  have hsize : (m.core.states r).commits.size ≤ cfg.window := by
    have hle := OrdMap.size_le (m := (m.core.states r).commits)
      (a := (m.core.states r).checkpoint.low) (b := (m.core.states r).checkpoint.high)
      fun k b hk => (hf k b hk).1
    have hhigh : (m.core.states r).checkpoint.high =
        (m.core.states r).checkpoint.low + cfg.window := hh
    rwa [hhigh, Nat.add_sub_cancel_left] at hle
  have hmax : SerializedState.maxProposal (m.core.states r).commits ≤ cfg.maxProposalSize :=
    maxProposal_le fun e he => (hf e.1 e.2 (OrdMap.mem_entries.mp he)).2
  refine ⟨fun i b hi => (hf i b hi).1, hsize, fun junk view => ?_, fun hn hv => ?_⟩
  · rw [SerializedState.length_serialize]
    exact Consensus.bufferSize_mono hsize hmax
  · refine CbCheckpoint.bufferSize_mono hn hv ?_ hmax
    exact (List.length_map ..).trans_le hsize

/-! ### A commit below the checkpoint -/

namespace Example

open Deployment

/-- Replica 1 broadcasts the checkpoint of the others, which the replica broadcasts too, then a
commit for the instance `i`. -/
def committing (i : Nat) : List Label :=
  tickCb 0 (.checkpoint (some (certificate encodeCheckpoint 1 2 (.of 2 4 []) [1, 2]))) ++
    .call .tick :: drain 40 ++ tickCb 1 (.commit (some (certificate id 0 i [7] [1, 2])))

/-- The commit of replica 1 for the instance `i` is stored, and its checkpoint is at 2. -/
def committed (i : Nat) (m : Machine) : Bool :=
  ((m.core.states 0).commits.find? i).isSome && (m.core.states 0).checkpoint.low = 2

end Example

/-- Instance 0 is stored below the checkpoint. -/
theorem commits_not_in_window :
    ¬ ∀ (cfg : Config) (m : Machine), Reachable (Machine.Init cfg) (Machine.Step cfg) Always m →
        ∀ r, Windowed cfg (m.core.states r) := by
  intro h
  obtain ⟨m, hm, hs⟩ : ∃ m, Reachable (Machine.Init Example.three) (Machine.Step Example.three)
      (fun _ _ => True) m ∧ Example.committed 0 m = true :=
    Machine.exists_reachable Deployment.allKnown (Example.committing 0) (by decide +kernel)
  simp only [Example.committed, Bool.and_eq_true, decide_eq_true_eq] at hs
  obtain ⟨hc, hl⟩ := hs
  obtain ⟨b, hb⟩ := Option.isSome_iff_exists.mp hc
  have hin := (h _ m hm.always 0).keys 0 b hb
  rw [Checkpoint.contains, hl] at hin
  exact absurd hin.1 (by decide)

/-- Instance 3 is stored in the window. -/
theorem commits_in_window_third : ∃ (m : Machine) (b : BroadcastCommit),
    (m.core.states 0).commits.find? 3 = some b ∧ Windowed Example.three (m.core.states 0) := by
  obtain ⟨m, hm, hs⟩ : ∃ m, Reachable (Machine.Init Example.three) (Machine.Step Example.three)
      (Confines Example.three) m ∧ Example.committed 3 m = true :=
    Machine.exists_reachable Deployment.allKnown (Example.committing 3) (by decide +kernel)
  simp only [Example.committed, Bool.and_eq_true] at hs
  obtain ⟨b, hb⟩ := Option.isSome_iff_exists.mp hs.1
  exact ⟨m, b, hb, commits_in_window hm 0⟩

end Ubft.Consensus

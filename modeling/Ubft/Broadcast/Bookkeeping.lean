import Ubft.Broadcast.Delivery
import Ubft.Broadcast.Handles

/-!
# Broadcast — the bookkeeping of the READs

As long as the readers' erased elements are intact, the handles of the map stand for the READs of
`Receiver` (`Linked`): each other receiver is counted once, after its READ completed, and after
the verification of its register where the signatures differ.  An entry of the map is erased when
the READs of all the others have completed, if and only if none of them was found completed by an
earlier `pollReadCompletions` (`bookkept_of_reachable`).
-/

namespace Ubft.Broadcast

open Swmr.Readers (ReplicatedReader Handle JobHandle Completion)

variable {cr : Crypto}

namespace Receiver

variable {r r' : Receiver}

theorem isOf_iff {i : Index} {q : ProcId} {rd : Read} :
    rd.isOf i q = true ↔ rd.index = i ∧ rd.replica = q := by
  rw [Read.isOf, Bool.and_eq_true, decide_eq_true_eq, decide_eq_true_eq]

/-- The READ of `q`'s register that completes is one under way. -/
theorem readCompleted_eq {i : Index} {q : ProcId}
    (h : ∃ rd ∈ r.outstandingReads, rd.isOf i q = true) :
    ∃ k rd, r.outstandingReads[k]? = some rd ∧ rd.index = i ∧ rd.replica = q ∧
      ∀ reg, r.readCompleted i q reg = r.pollReadCompletion k reg := by
  obtain ⟨k, hk⟩ := Option.isSome_iff_exists.mp (List.findIdx?_isSome.trans
    (List.any_eq_true.mpr h))
  obtain ⟨hlt, hof, -⟩ := List.findIdx?_eq_some_iff_getElem.mp hk
  have he : r.outstandingReads.eraseP (Read.isOf i q) = r.outstandingReads.eraseIdx k := by
    rw [List.eraseP_eq_eraseIdx, hk]
  obtain ⟨rfl, rfl⟩ := isOf_iff.mp hof
  have hrd := List.getElem?_eq_getElem hlt
  refine ⟨k, _, hrd, rfl, rfl, fun reg => ?_⟩
  rw [pollReadCompletion, hrd, ← he]
  rfl

/-- A completed READ is not outstanding. -/
theorem reads_readCompleted {i : Index} {q : ProcId} {reg : Register}
    (h : r.readCompleted i q reg = .ok r') :
    r'.outstandingReads = r.outstandingReads.eraseP (Read.isOf i q) ∧
      r'.others = r.others := by
  unfold readCompleted at h
  simp only at h
  split at h
  · cases h
  · split at h
    · cases h; exact ⟨rfl, rfl⟩
    · split at h <;> cases h <;> exact ⟨rfl, rfl⟩

/-- The operations but the completions leave the READs alone. -/
theorem reads_handle {inp : Input} (hn : inp.isCompletion = false)
    (h : r.handle cr inp = .ok r') :
    r'.outstandingReads = r.outstandingReads := by
  cases inp with
  | message m =>
      rcases handleMessage_cases h with rfl | ⟨-, h⟩
      · rfl
      · have hs := sameSlow_replayEchoes h
        exact hs.outstandingReads
  | echo q e =>
      simp only [Receiver.handle] at h
      split at h
      · have hs := handleEcho_cases h
        exact hs.outstandingReads
      · cases h; rfl
  | signature i sig =>
      rcases handleSignature_cases h with rfl | ⟨d, -, -, rfl⟩ <;> rfl
  | finishCheck k =>
      cases h
      rcases finishCheck_cases cr r k with he | ⟨c, -, he⟩ <;> rw [he]
  | dropCheck k => cases h; rfl
  | pollSignatureVerification =>
      rcases pollSignatureVerification_cases h with
        rfl | ⟨v, vs, -, ⟨-, rfl⟩ | ⟨d, -, ⟨-, -, hw⟩ | ⟨q, -, -, rfl⟩⟩⟩
      · rfl
      · rfl
      · obtain ⟨sig, -, -, -, rfl⟩ := write_cases hw
        rfl
      · rfl
  | writeCompletion slot since => cases hn
  | readCompletion k reg => cases hn
  | poll =>
      cases h
      rcases poll_cases r with he | ⟨i, d, -, -, he⟩ <;> rw [he]
  | toggleSlowPath b => cases h; rfl

end Receiver

namespace SlowReceiver

variable {s s' : SlowReceiver}

/-- The handle of the READ of `q`'s register for message `i`. -/
def handle? (s : SlowReceiver) (i : Index) (q : ProcId) : Option Handle :=
  (s.outstandingReads.find? i).bind fun handles => (handles.lookup q).join

/-- The READ of `q`'s register for message `i` was found completed. -/
def Answered (s : SlowReceiver) (i : Index) (q : ProcId) : Prop :=
  (i, q) ∈ s.answers.map fun a => (a.1, a.2.1)

instance (s : SlowReceiver) (i : Index) (q : ProcId) : Decidable (s.Answered i q) :=
  inferInstanceAs (Decidable (_ ∈ _))

/-- The next `pollReadCompletions` finds it completed. -/
def Ready (s : SlowReceiver) (i : Index) (q : ProcId) : Prop :=
  ∃ handle, s.handle? i q = some handle ∧ (s.readers q).Ready handle

/-- What was read in `q`'s register for message `i`. -/
def Found (s : SlowReceiver) (q : ProcId) (i : Index) (hash : Hash) (sig : Signature) : Prop :=
  ∃ reg, (i, q, reg) ∈ s.answers ∧ reg.hash = hash ∧ reg.signature = sig

/-- The register of `q` does not speak against message `i`: what was read is older, has the
signature held, or was verified and is not signed. -/
def Cleared (cr : Crypto) (s : SlowReceiver) (q : ProcId) (i : Index) : Prop :=
  ∃ reg, (i, q, reg) ∈ s.answers ∧ (reg.incarnation < expectedIncarnation s.recv.tail i ∨
    (∀ h, s.recv.held i = some h → h.signature = some reg.signature) ∨
    ⟨i, reg.hash, reg.signature, .receiverRegister q⟩ ∈ s.finished ∧
      cr.verify reg.signature reg.hash = false)

/-! ### The invariant -/

/-- What a handle of the map stands for. -/
structure Tracks (s : SlowReceiver) (i : Index) (q : ProcId) (handle : Handle) : Prop where
  issued : handle < (s.readers q).nextHandle
  returned : handle ∈ (s.readers q).results.map Prod.fst ↔ s.Answered i q
  outstanding : ¬ s.Answered i q → ∃ rd ∈ s.recv.outstandingReads, rd.isOf i q = true
  begun : ∃ rd ∈ s.recv.begun, rd.index = i

/-- The handles of the map are those of the READs begun. -/
structure Linked (cr : Crypto) (s : SlowReceiver) : Prop where
  nodup : s.recv.others.Nodup
  fifo : s.recv.Fifo
  signing : s.recv.Signing cr
  counted : s.recv.Counted
  scanned : Scanned s.Found (s.Cleared cr) s.recv
  readers : ∀ q, (s.readers q).Inv
  handles : ∀ i handles, s.outstandingReads.find? i = some handles → ∀ q ∈ s.recv.others,
    ∃ handle, s.handle? i q = some handle
  tracked : ∀ i, ∀ q ∈ s.recv.others, ∀ handle, s.handle? i q = some handle →
    s.Tracks i q handle
  distinct : ∀ i i', ∀ q ∈ s.recv.others, ∀ handle, s.handle? i q = some handle →
    s.handle? i' q = some handle → i = i'
  answered : ∀ i q, s.Answered i q → ∃ rd ∈ s.recv.begun, rd.index = i

theorem linked_init (h : s.Init) : s.Linked cr := by
  obtain ⟨tail, others, readers, ht, hn, hr, rfl⟩ := h
  obtain ⟨hf, hs, hc⟩ := Config.start_sound cr others ht
  refine ⟨hn, hf, hs, hc, ⟨?_, ?_, ?_⟩, fun q => ReplicatedReader.inv_init (hr q), ?_, ?_, ?_, ?_⟩
  · exact fun _ hck => nomatch hck
  · exact fun _ hv => nomatch hv
  · exact fun _ _ hd => nomatch hd
  · exact fun _ _ hh => nomatch hh
  · exact fun _ _ _ _ hh => nomatch hh
  · exact fun _ _ _ _ _ hh => nomatch hh
  · exact fun _ _ ha => nomatch ha

/-! ### The history grows -/

/-- `s'` comes after `s`. -/
structure Extends (s s' : SlowReceiver) : Prop where
  recv : s.recv.Grows s'.recv
  answers : ∀ a ∈ s.answers, a ∈ s'.answers
  finished : ∀ ck ∈ s.finished, ck ∈ s'.finished

theorem Found.extends (he : s.Extends s') {q : ProcId} {i : Index} {hash : Hash}
    {sig : Signature} (h : s.Found q i hash sig) : s'.Found q i hash sig := by
  obtain ⟨reg, ha, hr⟩ := h
  exact ⟨reg, he.answers _ ha, hr⟩

/-- The signature held of a message whose registers are read does not change. -/
theorem Cleared.extends (hl : s.Linked cr) (he : s.Extends s') {q : ProcId} {i : Index}
    (h : s.Cleared cr q i) : s'.Cleared cr q i := by
  obtain ⟨reg, ha, hcase⟩ := h
  refine ⟨reg, he.answers _ ha, ?_⟩
  rw [he.recv.tail]
  refine hcase.imp_right (Or.imp (fun hsig => ?_) fun ⟨hck, hv⟩ => ⟨he.finished _ hck, hv⟩)
  obtain ⟨rd, hrd, rfl⟩ := hl.answered i q (List.mem_map.mpr ⟨_, ha, rfl⟩)
  obtain ⟨m, hm, hi, -⟩ := (hl.signing.begun rd hrd).1
  exact Receiver.signature_grows hl.fifo he.recv hm hi hsig

theorem Linked.scanned_extends (hl : s.Linked cr) (he : s.Extends s') :
    Scanned s'.Found (s'.Cleared cr) s.recv :=
  ⟨fun ck hck q hq => (hl.scanned.checks ck hck q hq).extends he,
    fun v hv q hq hok => (hl.scanned.verified v hv q hq hok).extends hl he,
    fun i h hh q hq => (hl.scanned.checked i h hh q hq).extends hl he⟩

/-! ### What is not polled -/

/-- Nothing is returned, and no READ ends. -/
theorem Tracks.congr {i : Index} {q : ProcId} {handle : Handle} (h : s.Tracks i q handle)
    (hn : (s.readers q).nextHandle ≤ (s'.readers q).nextHandle)
    (hr : (s'.readers q).results = (s.readers q).results) (ha : s'.answers = s.answers)
    (ho : ∀ rd ∈ s.recv.outstandingReads, rd ∈ s'.recv.outstandingReads)
    (hb : ∀ rd ∈ s.recv.begun, rd ∈ s'.recv.begun) : s'.Tracks i q handle := by
  have hans : s'.Answered i q ↔ s.Answered i q := by rw [Answered, Answered, ha]
  refine ⟨h.issued.trans_le hn, by rw [hr, hans]; exact h.returned, fun hna => ?_, ?_⟩
  · obtain ⟨rd, hrd, hof⟩ := h.outstanding (mt hans.mpr hna)
    exact ⟨rd, ho rd hrd, hof⟩
  · obtain ⟨rd, hrd, hi⟩ := h.begun
    exact ⟨rd, hb rd hrd, hi⟩

/-- The receiver reacts, and no READ ends. -/
theorem Linked.grown (hl : s.Linked cr) {inp : Input} {r : Receiver} {finished : List Check}
    (hh : s.recv.handle cr inp = .ok r)
    (hs : Scanned ({ s with recv := r, finished } : SlowReceiver).Found
      (({ s with recv := r, finished } : SlowReceiver).Cleared cr) r)
    (ho : ∀ rd ∈ s.recv.outstandingReads, rd ∈ r.outstandingReads) :
    ({ s with recv := r, finished } : SlowReceiver).Linked cr := by
  have hg := Receiver.Grows.handle hh
  refine ⟨hg.others ▸ hl.nodup, hl.fifo.handle hh, hl.signing.handle hl.fifo hh,
    hl.counted.handle hl.fifo hl.signing hl.nodup hh, hs, hl.readers, ?_, ?_, ?_, ?_⟩
  · change ∀ i handles, _ → ∀ q ∈ r.others, _
    rw [hg.others]
    exact hl.handles
  · change ∀ i, ∀ q ∈ r.others, _
    rw [hg.others]
    exact fun i q hq handle hh => (hl.tracked i q hq handle hh).congr le_rfl rfl rfl ho hg.begun
  · change ∀ i i', ∀ q ∈ r.others, _
    rw [hg.others]
    exact hl.distinct
  · intro i q ha
    obtain ⟨rd, hrd, hi⟩ := hl.answered i q ha
    exact ⟨rd, hg.begun rd hrd, hi⟩

/-- The receiver takes an input. -/
theorem Linked.recv (hl : s.Linked cr) {inp : Input} {r : Receiver}
    (hn : inp.isCompletion = false) (hh : s.recv.handle cr inp = .ok r) :
    ({ s with recv := r, finished := s.finished ++ s.finishes inp } : SlowReceiver).Linked cr := by
  have he : s.Extends { s with recv := r, finished := s.finished ++ s.finishes inp } :=
    ⟨Receiver.Grows.handle hh, fun _ ha => ha, fun _ hc => List.mem_append_left _ hc⟩
  refine hl.grown hh ?_ fun rd hrd => Receiver.reads_handle hn hh ▸ hrd
  refine (hl.scanned_extends he).handle (fun k ck q hin hck ho ⟨reg, ha, hhash, hsig⟩ hok => ?_)
    (fun k reg rd d hin => by rw [hin] at hn; cases hn) hh
  refine ⟨reg, ha, .inr (.inr ⟨List.mem_append_right _ ?_, by rw [hhash, hsig]; exact hok⟩)⟩
  rw [hin, finishes, hck, hhash, hsig, ← ho]
  exact List.mem_singleton.mpr rfl

theorem Linked.tickReader (hl : s.Linked cr) {q : ProcId} {reader : ReplicatedReader}
    {wcs : List (List Completion)}
    (ht : (s.readers q).tick wcs (s.readers q).tickKeys = .ok reader) :
    ({ s with readers := Function.update s.readers q reader } : SlowReceiver).Linked cr := by
  obtain ⟨hinv, hn, hr⟩ := (hl.readers q).tick ht
  have hsame : ∀ p, (Function.update s.readers q reader p).Inv ∧
      (s.readers p).nextHandle ≤ (Function.update s.readers q reader p).nextHandle ∧
      (Function.update s.readers q reader p).results = (s.readers p).results := by
    intro p
    by_cases hp : p = q
    · subst hp
      rw [Function.update_self]
      exact ⟨hinv, hn.ge, hr⟩
    · rw [Function.update_of_ne hp]
      exact ⟨hl.readers p, le_rfl, rfl⟩
  exact ⟨hl.nodup, hl.fifo, hl.signing, hl.counted, hl.scanned, fun p => (hsame p).1, hl.handles,
    fun i p hp handle hh => (hl.tracked i p hp handle hh).congr (hsame p).2.1 (hsame p).2.2 rfl
      (fun _ h => h) fun _ h => h, hl.distinct, hl.answered⟩

/-! ### READs begin -/

/-- The state after the READs of register `slot` for message `i` began. -/
def begins (s : SlowReceiver) (i : Index) (slot : Nat) : SlowReceiver :=
  let read q := (s.readers q).read slot (s.readers q).readKeys
  { s with
    readers := fun q => if q ∈ s.recv.others then (read q).1 else s.readers q
    outstandingReads := s.outstandingReads.insert i
      ((s.outstandingReads.find? i).getD [] ++ s.recv.others.map fun q => (q, some (read q).2)) }

/-- READs begin under one index. -/
theorem handle?_begins_of_ne {i i' : Index} (hi : i' ≠ i) (slot : Nat) (q : ProcId) :
    (s.begins i slot).handle? i' q = s.handle? i' q := by
  rw [handle?, handle?, begins]
  simp only [OrdMap.find?_insert_of_ne _ _ hi]

/-- A begun READ has the reader's next handle. -/
theorem handle?_begins {i : Index} {q : ProcId} (hq : q ∈ s.recv.others)
    (hi : s.outstandingReads.find? i = none) (slot : Nat) :
    (s.begins i slot).handle? i q = some (s.readers q).nextHandle := by
  rw [handle?, begins]
  simp only [OrdMap.find?_insert_self, hi, Option.getD_none, List.nil_append, Option.bind_some,
    Assoc.lookup_map_self hq, Option.join_some]
  rfl

/-- The handles are those that the readers give out next. -/
theorem Linked.begins (hl : s.Linked cr) {i : Index} (slot : Nat)
    (hnew : s.recv.others ≠ [] → s.outstandingReads.find? i = none)
    (hna : ∀ q, ¬ s.Answered i q)
    (hrd : ∀ q ∈ s.recv.others, ∃ rd ∈ s.recv.outstandingReads, rd.isOf i q = true)
    (hb : s.recv.others ≠ [] → ∃ rd ∈ s.recv.begun, rd.index = i) :
    (s.begins i slot).Linked cr := by
  have hreaders : ∀ q, ((s.begins i slot).readers q).Inv ∧
      (s.readers q).nextHandle ≤ ((s.begins i slot).readers q).nextHandle ∧
      ((s.begins i slot).readers q).results = (s.readers q).results := by
    intro q
    change ((if q ∈ s.recv.others then _ else s.readers q) : ReplicatedReader).Inv ∧
      _ ≤ (if q ∈ s.recv.others then _ else s.readers q : ReplicatedReader).nextHandle ∧
      (if q ∈ s.recv.others then _ else s.readers q : ReplicatedReader).results = _
    split
    · exact ⟨(hl.readers q).read slot, Nat.le_succ _, rfl⟩
    · exact ⟨hl.readers q, le_rfl, rfl⟩
  have hlt : ∀ q ∈ s.recv.others,
      (s.readers q).nextHandle < ((s.begins i slot).readers q).nextHandle := by
    intro q hq
    change _ < (if q ∈ s.recv.others then _ else s.readers q : ReplicatedReader).nextHandle
    rw [if_pos hq]
    exact Nat.lt_succ_self _
  -- what is known of the handle of a message and a receiver
  have hcases : ∀ i', ∀ q ∈ s.recv.others, ∀ handle, (s.begins i slot).handle? i' q = some handle →
      i' = i ∧ handle = (s.readers q).nextHandle ∨ i' ≠ i ∧ s.handle? i' q = some handle := by
    intro i' q hq handle hh
    by_cases hi : i' = i
    · subst hi
      rw [handle?_begins hq (hnew (List.ne_nil_of_mem hq))] at hh
      cases hh
      exact .inl ⟨rfl, rfl⟩
    · exact .inr ⟨hi, handle?_begins_of_ne hi slot q ▸ hh⟩
  refine ⟨hl.nodup, hl.fifo, hl.signing, hl.counted, hl.scanned, fun q => (hreaders q).1,
    fun i' handles hf q hq => ?_, fun i' q hq handle hh => ?_, fun i₁ i₂ q hq handle h₁ h₂ => ?_,
    hl.answered⟩
  · by_cases hi : i' = i
    · rw [hi]
      exact ⟨_, handle?_begins (s := s) hq (hnew (List.ne_nil_of_mem hq)) slot⟩
    · rw [handle?_begins_of_ne hi]
      change (s.outstandingReads.insert i _).find? i' = some handles at hf
      rw [OrdMap.find?_insert_of_ne _ _ hi] at hf
      exact hl.handles i' handles hf q hq
  · rcases hcases i' q hq handle hh with ⟨rfl, rfl⟩ | ⟨-, hh⟩
    · refine ⟨hlt q hq, ⟨fun hr => ?_, fun ha => absurd ha (hna q)⟩, fun _ => hrd q hq,
        hb (List.ne_nil_of_mem hq)⟩
      rw [(hreaders q).2.2] at hr
      exact absurd ((hl.readers q).lt_nextHandle hr) (lt_irrefl _)
    · exact (hl.tracked i' q hq handle hh).congr (hreaders q).2.1 (hreaders q).2.2 rfl
        (fun _ h => h) fun _ h => h
  · rcases hcases i₁ q hq handle h₁ with ⟨rfl, rfl⟩ | ⟨-, h₁'⟩
    · rcases hcases i₂ q hq _ h₂ with ⟨rfl, -⟩ | ⟨-, h₂'⟩
      · rfl
      · exact absurd (hl.tracked i₂ q hq _ h₂').issued (lt_irrefl _)
    · rcases hcases i₂ q hq _ h₂ with ⟨rfl, rfl⟩ | ⟨-, h₂'⟩
      · exact absurd (hl.tracked i₁ q hq _ h₁').issued (lt_irrefl _)
      · exact hl.distinct i₁ i₂ q hq handle h₁' h₂'

theorem Linked.pollWriteCompletion (hl : s.Linked cr) (slot : Nat) :
    (s.pollWriteCompletion slot none).Linked cr := by
  have hh : s.recv.handle cr (.writeCompletion slot fun _ => 0) =
      .ok (s.recv.pollWriteCompletion slot fun _ => 0) := rfl
  have hg := Receiver.Grows.handle hh
  have hs : Scanned s.Found (({ s with
      recv := s.recv.pollWriteCompletion slot fun _ => 0 } : SlowReceiver).Cleared cr)
        (s.recv.pollWriteCompletion slot fun _ => 0) := by
    have he : s.Extends { s with recv := s.recv.pollWriteCompletion slot fun _ => 0 } :=
      ⟨hg, fun _ ha => ha, fun _ hc => hc⟩
    exact (hl.scanned_extends he).handle (fun _ _ _ hin => by cases hin)
      (fun _ _ _ _ hin => by cases hin) hh
  unfold SlowReceiver.pollWriteCompletion
  cases hi : s.recv.outstandingWrites.find? slot with
  | none => exact hl
  | some i =>
      cases hd : s.recv.msgTail.find? i with
      | none =>
          simp only [hd]
          refine hl.grown hh hs fun rd hrd => ?_
          rw [Receiver.pollWriteCompletion, hi]
          simp only [hd]
          exact hrd
      | some d =>
          have hr : (s.recv.pollWriteCompletion slot fun _ => 0).outstandingReads =
                s.recv.outstandingReads ++ s.recv.readsOf i (fun _ => 0) ∧
              (s.recv.pollWriteCompletion slot fun _ => 0).begun =
                s.recv.begun ++ s.recv.readsOf i (fun _ => 0) := by
            rw [Receiver.pollWriteCompletion, hi]
            simp only [hd]
            exact ⟨rfl, rfl⟩
          have hnb := hl.counted.not_begun hl.signing hi hd
          have hl' := hl.grown hh hs fun rd hrd => hr.1 ▸ List.mem_append_left _ hrd
          have hmem : ∀ q ∈ s.recv.others, (⟨i, q, 0⟩ : Read) ∈ s.recv.readsOf i fun _ => 0 :=
            fun q hq => List.mem_map.mpr ⟨q, hq, rfl⟩
          have ho : (s.recv.pollWriteCompletion slot fun _ => 0).others = s.recv.others := hg.others
          have hb := hl'.begins (i := i) slot (fun hne => ?_) (fun q ha => hnb (hl.answered i q ha))
            (fun q hq => ?_) fun hne => ?_
          · rw [SlowReceiver.begins] at hb
            simp only [ho] at hb
            simp only [hd]
            exact hb
          · -- a handle of the entry would be one of a READ begun
            obtain ⟨q, hq⟩ := List.exists_mem_of_ne_nil _ hne
            cases hf : s.outstandingReads.find? i with
            | none => rfl
            | some handles =>
                obtain ⟨handle, hh⟩ := hl.handles i handles hf q (ho ▸ hq)
                exact absurd (hl.tracked i q (ho ▸ hq) handle hh).begun hnb
          · exact ⟨⟨i, q, 0⟩, hr.1 ▸ List.mem_append_right _ (hmem q (ho ▸ hq)),
              Receiver.isOf_iff.mpr ⟨rfl, rfl⟩⟩
          · obtain ⟨q, hq⟩ := List.exists_mem_of_ne_nil _ hne
            exact ⟨⟨i, q, 0⟩, hr.2 ▸ List.mem_append_right _ (hmem q (ho ▸ hq)), rfl⟩

/-! ### READs are polled -/

/-- A READ that is ready was not answered yet. -/
theorem Linked.not_answered (hl : s.Linked cr) {i : Index} {q : ProcId} (hq : q ∈ s.recv.others)
    (hr : s.Ready i q) : ¬ s.Answered i q := by
  obtain ⟨handle, hh, hr⟩ := hr
  exact mt (hl.tracked i q hq handle hh).returned.mpr ((hl.readers q).of_ready hr).2

theorem answered_append {i : Index} {q : ProcId} {reg : Register} {r : Receiver}
    {readers : ProcId → ReplicatedReader} (i' : Index) (q' : ProcId) :
    ({ s with recv := r, readers, answers := s.answers ++ [(i, q, reg)] } :
      SlowReceiver).Answered i' q' ↔ s.Answered i' q' ∨ i' = i ∧ q' = q := by
  rw [Answered, Answered, List.map_append, List.mem_append, List.map_singleton,
    List.mem_singleton, Prod.mk.injEq]

/-- **A READ completes**, and the others are what they were. -/
theorem Linked.readCompleted (hl : s.Linked cr) {i : Index} {q : ProcId}
    (hq : q ∈ s.recv.others) {handle : Handle} (hh : s.handle? i q = some handle)
    {reader : ReplicatedReader} (hinv : reader.Inv) (hret : (s.readers q).Returns handle reader)
    {reg : Register} {r : Receiver} (hr : s.recv.readCompleted i q reg = .ok r) :
    ({ s with
      recv := r
      readers := Function.update s.readers q reader
      answers := s.answers ++ [(i, q, reg)] } : SlowReceiver).Linked cr := by
  have htr := hl.tracked i q hq handle hh
  have hna := hl.not_answered hq ⟨handle, hh, hret.ready⟩
  obtain ⟨hreads, -⟩ := Receiver.reads_readCompleted hr
  have hhandle : ∃ k rd, s.recv.outstandingReads[k]? = some rd ∧ rd.index = i ∧ rd.replica = q ∧
      s.recv.handle cr (.readCompletion k reg) = .ok r := by
    obtain ⟨k, rd, hrd, hi, hp, he⟩ := Receiver.readCompleted_eq (htr.outstanding hna)
    exact ⟨k, rd, hrd, hi, hp, (he reg).symm.trans hr⟩
  obtain ⟨k, rd, hrd, hi, hp, hrun⟩ := hhandle
  have hg := Receiver.Grows.handle hrun
  have hlast : (i, q, reg) ∈ s.answers ++ [(i, q, reg)] :=
    List.mem_append_right _ List.mem_cons_self
  have hreaders : ∀ p, (Function.update s.readers q reader p).Inv ∧
      (Function.update s.readers q reader p).nextHandle = (s.readers p).nextHandle := by
    intro p
    by_cases hpq : p = q
    · subst hpq
      rw [Function.update_self]
      exact ⟨hinv, hret.nextHandle⟩
    · rw [Function.update_of_ne hpq]
      exact ⟨hl.readers p, rfl⟩
  refine ⟨hg.others ▸ hl.nodup, hl.fifo.handle hrun, hl.signing.handle hl.fifo hrun,
    hl.counted.handle hl.fifo hl.signing hl.nodup hrun, ?_, fun p => (hreaders p).1, ?_, ?_, ?_, ?_⟩
  · have he : s.Extends { s with
        recv := r
        readers := Function.update s.readers q reader
        answers := s.answers ++ [(i, q, reg)] } :=
      ⟨hg, fun _ ha => List.mem_append_left _ ha, fun _ hc => hc⟩
    refine (hl.scanned_extends he).handle (fun _ _ _ hin => by cases hin)
      (fun k' reg' rd' d hin hrd' hd hle => ?_) hrun
    cases hin
    rw [hrd] at hrd'
    cases hrd'
    rw [hi] at hd
    rw [hi, hp]
    refine ⟨⟨reg, hlast, rfl, rfl⟩, fun hok => ⟨reg, hlast, ?_⟩⟩
    rcases hok with hlt | hsig
    · exact .inl (by rw [show r.tail = s.recv.tail from hg.tail]; exact hlt)
    · refine .inr (.inl ?_)
      obtain ⟨rd₀, hb, rfl⟩ := htr.begun
      obtain ⟨m, hm, hmi, -⟩ := (hl.signing.begun rd₀ hb).1
      refine Receiver.signature_grows hl.fifo hg hm hmi fun h hheld => ?_
      rw [Receiver.held_of_find? hd] at hheld
      cases hheld
      exact hsig
  · change ∀ i handles, _ → ∀ q ∈ r.others, _
    rw [hg.others]
    exact hl.handles
  · intro i' q' hq₀ handle' hh₀
    have hq' : q' ∈ s.recv.others := hg.others ▸ hq₀
    have hh' : s.handle? i' q' = some handle' := hh₀
    have ht := hl.tracked i' q' hq' handle' hh'
    refine ⟨(hreaders q').2.symm ▸ ht.issued, ?_, fun hna' => ?_, ?_⟩
    · rw [answered_append]
      change handle' ∈ (Function.update s.readers q reader q').results.map Prod.fst ↔ _
      by_cases hqq : q' = q
      · subst hqq
        rw [Function.update_self, hret.results, List.mem_append, List.mem_singleton, ht.returned]
        refine or_congr_right ⟨fun he => ⟨?_, rfl⟩, fun he => ?_⟩
        · exact hl.distinct i' i q' hq handle' hh' (he ▸ hh)
        · rw [he.1, hh] at hh'
          cases hh'
          rfl
      · rw [Function.update_of_ne hqq, ht.returned]
        exact ⟨.inl, fun h => h.resolve_right fun hc => hqq hc.2⟩
    · rw [answered_append, not_or] at hna'
      obtain ⟨rd', hrd', hof⟩ := ht.outstanding hna'.1
      refine ⟨rd', ?_, hof⟩
      change rd' ∈ r.outstandingReads
      rw [hreads, List.mem_eraseP_of_neg fun hc => hna'.2 ?_]
      · exact hrd'
      · obtain ⟨h₁, h₂⟩ := Receiver.isOf_iff.mp hof
        obtain ⟨h₃, h₄⟩ := Receiver.isOf_iff.mp hc
        exact ⟨h₁.symm.trans h₃, h₂.symm.trans h₄⟩
    · obtain ⟨rd', hrd', hi'⟩ := ht.begun
      exact ⟨rd', hg.begun rd' hrd', hi'⟩
  · change ∀ i i', ∀ q ∈ r.others, _
    rw [hg.others]
    exact hl.distinct
  · intro i' q' ha
    rcases (answered_append i' q').mp ha with ha | ⟨rfl, -⟩
    · obtain ⟨rd', hrd', hi'⟩ := hl.answered i' q' ha
      exact ⟨rd', hg.begun rd' hrd', hi'⟩
    · obtain ⟨rd', hrd', hi'⟩ := htr.begun
      exact ⟨rd', hg.begun rd' hrd', hi'⟩

/-- The handles of `p` are polled: of these READs, the ones that are ready are answered. -/
structure Polled (s : SlowReceiver) (p : Index → ProcId → Prop) (s' : SlowReceiver) : Prop where
  others : s'.recv.others = s.recv.others
  answered : ∀ i q, s'.Answered i q ↔ s.Answered i q ∨ p i q ∧ s.Ready i q
  ready : ∀ i, ∀ q ∈ s.recv.others, ¬ p i q → (s'.Ready i q ↔ s.Ready i q)

theorem Polled.nothing {p : Index → ProcId → Prop} (h : ∀ i q, ¬ (p i q ∧ s.Ready i q)) :
    s.Polled p s :=
  ⟨rfl, fun i q => ⟨.inl, fun ha => ha.resolve_right (h i q)⟩, fun _ _ _ _ => .rfl⟩

theorem Polled.trans {s₁ : SlowReceiver} {p p₁ : Index → ProcId → Prop} (h : s.Polled p s₁)
    (h₁ : s₁.Polled p₁ s') (hd : ∀ i q, p₁ i q → q ∈ s.recv.others ∧ ¬ p i q) :
    s.Polled (fun i q => p i q ∨ p₁ i q) s' := by
  refine ⟨h₁.others.trans h.others, fun i q => ?_, fun i q hq hno => ?_⟩
  · rw [h₁.answered, h.answered, or_assoc, or_and_right]
    refine or_congr_right (or_congr_right (and_congr_right fun hp => ?_))
    exact h.ready i q (hd i q hp).1 (hd i q hp).2
  · rw [not_or] at hno
    exact (h₁.ready i q (h.others ▸ hq) hno.2).trans (h.ready i q hq hno.1)

/-- The same READs, said otherwise. -/
theorem Polled.congr {p p' : Index → ProcId → Prop} (h : s.Polled p s')
    (hp : ∀ i q, p i q ↔ p' i q) : s.Polled p' s' := by
  rwa [show p = p' from funext fun i => funext fun q => propext (hp i q)] at h

/-- One handle. -/
theorem Linked.pollHandle (hl : s.Linked cr) {i : Index} {q : ProcId} (hq : q ∈ s.recv.others)
    {handle : Handle} (hh : s.handle? i q = some handle) {b : Bool}
    (hp : SlowReceiver.pollHandle none s i q (some handle) = .ok (s', b)) :
    s'.Linked cr ∧ s'.outstandingReads = s.outstandingReads ∧
      s.Polled (fun i' q' => i' = i ∧ q' = q) s' ∧ (b = true ↔ s.Ready i q) := by
  have hready : s.Ready i q ↔ (s.readers q).Ready handle := by
    refine ⟨fun ⟨handle', hh', hr⟩ => ?_, fun hr => ⟨handle, hh, hr⟩⟩
    rw [hh] at hh'
    cases hh'
    exact hr
  unfold SlowReceiver.pollHandle at hp
  simp only at hp
  split at hp
  · cases hp
  · next hpoll =>
      cases hp
      rcases ((hl.readers q).poll hpoll).2 with ⟨-, -, hno⟩ | ⟨⟨y, hy⟩, -⟩
      · refine ⟨hl, rfl, .nothing ?_, (nomatch ·), fun hr => absurd (hready.mp hr) hno⟩
        rintro i' q' ⟨⟨rfl, rfl⟩, hr⟩
        exact hno (hready.mp hr)
      · cases hy
  · next reader x hpoll =>
      split at hp
      · cases hp
      · next r hr =>
          cases hp
          obtain ⟨hinv, ⟨hno, -⟩ | ⟨-, hret⟩⟩ := (hl.readers q).poll hpoll
          · cases hno
          have hrq := hready.mpr hret.ready
          refine ⟨hl.readCompleted hq hh hinv hret hr, rfl,
            ⟨(Receiver.reads_readCompleted hr).2, fun i' q' => ?_, fun i' q' hq' hne => ?_⟩,
            fun _ => hrq, fun _ => rfl⟩
          · rw [answered_append]
            refine or_congr_right ⟨fun he => ⟨he, ?_⟩, And.left⟩
            rw [he.1, he.2]
            exact hrq
          · refine exists_congr fun handle' => and_congr_right fun hh' => ?_
            change (Function.update s.readers q reader q').Ready handle' ↔ _
            by_cases hqq : q' = q
            · subst hqq
              rw [Function.update_self]
              refine hret.others handle' fun he => hne ⟨?_, rfl⟩
              exact hl.distinct i' i q' hq' handle' hh' (he ▸ hh)
            · rw [Function.update_of_ne hqq]

/-- The handles of an entry. -/
theorem Linked.pollHandles {i : Index} {handles : List (ProcId × Option Handle)}
    {qs : List ProcId} {n : Nat} (hl : s.Linked cr)
    (hf : s.outstandingReads.find? i = some handles) (hn : qs.Nodup) (hqs : qs ⊆ s.recv.others)
    (hp : SlowReceiver.pollHandles none i handles qs s = .ok (s', n)) :
    s'.Linked cr ∧ s'.outstandingReads = s.outstandingReads ∧
      s.Polled (fun i' q => i' = i ∧ q ∈ qs) s' ∧ n ≤ qs.length ∧
      (n = qs.length ↔ ∀ q ∈ qs, s.Ready i q) := by
  induction qs generalizing s n with
  | nil =>
      cases hp
      exact ⟨hl, rfl, .nothing fun _ _ hc => absurd hc.1.2 List.not_mem_nil, le_rfl,
        fun _ _ hq => absurd hq List.not_mem_nil, fun _ => rfl⟩
  | cons q qs ih =>
      obtain ⟨⟨s₁, b⟩, h₁, hp⟩ := bind_eq_ok.mp hp
      obtain ⟨⟨s₂, n₂⟩, h₂, hp⟩ := bind_eq_ok.mp hp
      cases hp
      obtain ⟨hnot, hn⟩ := List.nodup_cons.mp hn
      have hq := hqs List.mem_cons_self
      obtain ⟨handle, hh⟩ := hl.handles i handles hf q hq
      have hlook : (handles.lookup q).join = some handle := by
        rw [handle?, hf] at hh
        exact hh
      rw [hlook] at h₁
      obtain ⟨hl₁, hr₁, hp₁, hb⟩ := hl.pollHandle hq hh h₁
      obtain ⟨hl₂, hr₂, hp₂, hle, hall⟩ := ih hl₁ (hr₁ ▸ hf) hn
        (fun q' hq' => hp₁.others ▸ hqs (List.mem_cons_of_mem _ hq')) h₂
      have hsame : ∀ q' ∈ qs, s₁.Ready i q' ↔ s.Ready i q' := fun q' hq' =>
        hp₁.ready i q' (hqs (List.mem_cons_of_mem _ hq')) fun hc => hnot (hc.2 ▸ hq')
      refine ⟨hl₂, hr₂.trans hr₁, (hp₁.trans hp₂ fun i' q' hc => ?_).congr fun i' q' => ?_, ?_, ?_⟩
      · exact ⟨hqs (List.mem_cons_of_mem _ hc.2), fun hc' => hnot (hc'.2 ▸ hc.2)⟩
      · rw [List.mem_cons, and_or_left]
      · rw [List.length_cons]
        split <;> omega
      · rw [List.length_cons, List.forall_mem_cons, ← hb, ← forall₂_congr hsame, ← hall]
        split
        · next hbt => rw [Nat.add_right_cancel_iff]; exact ⟨fun h => ⟨hbt, h⟩, And.right⟩
        · next hbf => exact ⟨fun h => by omega, fun h => absurd h.1 hbf⟩

/-- An entry that is erased loses its handles. -/
theorem handle?_erase {i : Index} (i' : Index) (q : ProcId) :
    ({ s with outstandingReads := s.outstandingReads.erase i } : SlowReceiver).handle? i' q =
      if i' = i then none else s.handle? i' q := by
  rw [handle?, handle?, OrdMap.find?_erase]
  split <;> rfl

/-- An entry is erased. -/
theorem Linked.erase (hl : s.Linked cr) (i : Index) :
    ({ s with outstandingReads := s.outstandingReads.erase i } : SlowReceiver).Linked cr := by
  have hsub : ∀ {i' q handle}, ({ s with
      outstandingReads := s.outstandingReads.erase i } : SlowReceiver).handle? i' q = some handle →
      s.handle? i' q = some handle := by
    intro i' q handle hh
    rw [handle?_erase] at hh
    split at hh
    · cases hh
    · exact hh
  refine ⟨hl.nodup, hl.fifo, hl.signing, hl.counted, hl.scanned, hl.readers,
    fun i' handles hf q hq => ?_, fun i' q hq handle hh => ?_,
    fun i₁ i₂ q hq handle h₁ h₂ => hl.distinct i₁ i₂ q hq handle (hsub h₁) (hsub h₂), hl.answered⟩
  · rw [OrdMap.find?_erase] at hf
    split at hf
    · cases hf
    · next hne =>
        rw [handle?_erase, if_neg hne]
        exact hl.handles i' handles hf q hq
  · exact (hl.tracked i' q hq handle (hsub hh)).congr le_rfl rfl rfl (fun _ h => h) fun _ h => h

/-- The entries of `keys` are polled; those whose READs are all ready are erased. -/
structure Drained (s : SlowReceiver) (keys : List Index) (s' : SlowReceiver) : Prop where
  polled : s.Polled (fun i q => i ∈ keys ∧ q ∈ s.recv.others) s'
  entries : ∀ i handles, s'.outstandingReads.find? i = some handles ↔
    s.outstandingReads.find? i = some handles ∧
      ¬ (i ∈ keys ∧ ∀ q ∈ s.recv.others, s.Ready i q)

theorem Drained.nil : s.Drained [] s :=
  ⟨.nothing fun _ _ hc => absurd hc.1.1 List.not_mem_nil,
    fun _ _ => ⟨fun h => ⟨h, fun hc => absurd hc.1 List.not_mem_nil⟩, And.left⟩⟩

theorem Drained.cons {s₁ : SlowReceiver} {i : Index} {keys : List Index} (h : s.Drained [i] s₁)
    (h₁ : s₁.Drained keys s') (hi : i ∉ keys) : s.Drained (i :: keys) s' := by
  have ho := h.polled.others
  have hne : ∀ k ∈ keys, k ∉ [i] := fun k hk hc => hi (List.mem_singleton.mp hc ▸ hk)
  have hsame : ∀ k ∈ keys, (∀ q ∈ s.recv.others, s₁.Ready k q) ↔ ∀ q ∈ s.recv.others, s.Ready k q :=
    fun k hk => forall₂_congr fun q hq => h.polled.ready k q hq fun hc => hne k hk hc.1
  refine ⟨(h.polled.trans h₁.polled fun k q hc => ?_).congr fun k q => ?_, fun k handles => ?_⟩
  · exact ⟨ho ▸ hc.2, fun hc' => hne k hc.1 hc'.1⟩
  · rw [ho, List.mem_singleton, List.mem_cons, or_and_right]
  · rw [h₁.entries, h.entries, ho, and_assoc, ← not_or, List.mem_singleton, List.mem_cons,
      or_and_right]
    exact and_congr_right fun _ => not_congr (or_congr_right (and_congr_right (hsame k)))

/-- One entry. -/
theorem Linked.drained {i : Index} {handles : List (ProcId × Option Handle)} {n : Nat}
    (hl : s.Linked cr) (hf : s.outstandingReads.find? i = some handles)
    (hp : SlowReceiver.pollHandles none i handles s.recv.others s = .ok (s', n)) :
    (n = s'.recv.others.length → s.Drained [i] { s' with
      outstandingReads := s'.outstandingReads.erase i }) ∧
    (n ≠ s'.recv.others.length → s.Drained [i] s') ∧ s'.Linked cr := by
  obtain ⟨hl', hr, hpolled, -, hall⟩ := hl.pollHandles hf hl.nodup (fun _ hq => hq) hp
  have hpolled : s.Polled (fun k q => k ∈ [i] ∧ q ∈ s.recv.others) s' :=
    hpolled.congr fun k q => by rw [List.mem_singleton]
  rw [← hpolled.others] at hall
  refine ⟨fun hn => ⟨⟨hpolled.others, hpolled.answered, fun k q hq hno => ?_⟩, fun k hs => ?_⟩,
    fun hn => ⟨hpolled, fun k hs => ?_⟩, hl'⟩
  · rw [← hpolled.ready k q hq hno]
    refine exists_congr fun handle => and_congr_left fun _ => ?_
    rw [handle?_erase, if_neg fun hk => hno ⟨List.mem_singleton.mpr hk, hq⟩]
  · have hready := hpolled.others ▸ hall.mp hn
    rw [OrdMap.find?_erase, hr, List.mem_singleton]
    by_cases hk : k = i
    · subst hk
      rw [if_pos rfl]
      exact ⟨(nomatch ·), fun h => absurd ⟨rfl, hready⟩ h.2⟩
    · rw [if_neg hk]
      exact ⟨fun h => ⟨h, fun hc => hk hc.1⟩, And.left⟩
  · have hno := hpolled.others ▸ mt hall.mpr hn
    rw [hr, List.mem_singleton]
    refine ⟨fun h => ⟨h, ?_⟩, And.left⟩
    rintro ⟨rfl, hready⟩
    exact hno hready

theorem Linked.pollReadCompletions {entries : List (Index × List (ProcId × Option Handle))}
    (hl : s.Linked cr) (hn : (entries.map Prod.fst).Nodup)
    (hf : ∀ e ∈ entries, s.outstandingReads.find? e.1 = some e.2)
    (hp : SlowReceiver.pollReadCompletions none entries s = .ok s') :
    s'.Linked cr ∧ s.Drained (entries.map Prod.fst) s' := by
  induction entries generalizing s with
  | nil => cases hp; exact ⟨hl, .nil⟩
  | cons e entries ih =>
      obtain ⟨i, handles⟩ := e
      obtain ⟨⟨s₁, n⟩, h₁, hp⟩ := bind_eq_ok.mp hp
      obtain ⟨hnot, hn⟩ := List.nodup_cons.mp hn
      obtain ⟨herase, hkeep, hl₁⟩ := hl.drained (hf _ List.mem_cons_self) h₁
      have hrest : ∀ {s₂ : SlowReceiver}, s.Drained [i] s₂ →
          ∀ e ∈ entries, s₂.outstandingReads.find? e.1 = some e.2 := fun hd e he =>
        (hd.entries e.1 e.2).mpr ⟨hf e (List.mem_cons_of_mem _ he), fun hc =>
          hnot (List.mem_singleton.mp hc.1 ▸ List.mem_map.mpr ⟨e, he, rfl⟩)⟩
      simp only at hp
      split at hp
      · next hcount =>
          have hd := herase hcount
          obtain ⟨hl', hd'⟩ := ih (hl₁.erase i) hn (hrest hd) hp
          exact ⟨hl', hd.cons hd' hnot⟩
      · next hcount =>
          have hd := hkeep hcount
          obtain ⟨hl', hd'⟩ := ih hl₁ hn (hrest hd) hp
          exact ⟨hl', hd.cons hd' hnot⟩

theorem linked_step {l : SlowLabel} (hl : s.Linked cr) (hi : s.Intact l) (hs : s.Step cr l s') :
    s'.Linked cr := by
  cases l with
  | recv inp =>
      unfold Step next at hs
      simp only at hs
      split at hs
      · cases hs; exact hl
      · next hn =>
          split at hs
          · cases hs
          · next r hr =>
              cases hs
              exact hl.recv (Bool.eq_false_iff.mpr hn) hr
  | writeCompletion slot stale =>
      cases hi
      cases hs
      exact hl.pollWriteCompletion slot
  | tickReader q wcs stale =>
      cases hi
      unfold Step next at hs
      simp only at hs
      split at hs
      · cases hs
      · next reader ht =>
          cases hs
          exact hl.tickReader ht
  | readCompletions freed =>
      cases hi
      exact (hl.pollReadCompletions s.outstandingReads.nodup_keys
        (fun e he => OrdMap.mem_entries.mp he) hs).1

/-! ### What is counted, and what is erased -/

/-- Each other receiver is counted at most once, after its READ completed, and after the
verification of its register unless that is older or has the signature held. -/
structure Counts (cr : Crypto) (s : SlowReceiver) : Prop where
  once : ∀ i d, s.recv.msgTail.find? i = some d → d.checkedReceivers.Nodup
  others : ∀ i d, s.recv.msgTail.find? i = some d → d.checkedReceivers ⊆ s.recv.others
  answered : ∀ i d, s.recv.msgTail.find? i = some d → ∀ q ∈ d.checkedReceivers,
    ∃ reg, (i, q, reg) ∈ s.answers ∧ (reg.incarnation < expectedIncarnation s.recv.tail i ∨
      d.signature = some reg.signature ∨
      ⟨i, reg.hash, reg.signature, .receiverRegister q⟩ ∈ s.finished ∧
        cr.verify reg.signature reg.hash = false)

/-- The bookkeeping counts every answer. -/
theorem Linked.counts (hl : s.Linked cr) : s.Counts cr := by
  refine ⟨fun i d hd => hl.counted.nodup (Receiver.held_of_find? hd),
    fun i d hd => hl.counted.subset (Receiver.held_of_find? hd), fun i d hd q hq => ?_⟩
  have hheld := Receiver.held_of_find? hd
  obtain ⟨reg, ha, hcase⟩ := hl.scanned.checked i d.held hheld q hq
  exact ⟨reg, ha, hcase.imp_right (Or.imp_left fun hsig => hsig d.held hheld)⟩

/-- From `s` to `s'`, an entry is erased when the READs of all the others have completed. -/
def Erases (s s' : SlowReceiver) : Prop :=
  ∀ i handles, s.outstandingReads.find? i = some handles →
    (s'.outstandingReads.find? i = none ↔ ∀ q ∈ s.recv.others, s'.Answered i q)

/-- Of the entries whose READs have all completed, none has one that was found completed
earlier. -/
def Together (s : SlowReceiver) : Prop :=
  ∀ i handles, s.outstandingReads.find? i = some handles →
    (∀ q ∈ s.recv.others, s.Answered i q ∨ s.Ready i q) → ∀ q ∈ s.recv.others, ¬ s.Answered i q

/-- An entry is erased exactly when its READs complete together. -/
theorem Linked.erases_iff (hl : s.Linked cr) (hs : s.Step cr (.readCompletions none) s') :
    s.Erases s' ↔ s.Together := by
  obtain ⟨-, hp, hmap⟩ := hl.pollReadCompletions s.outstandingReads.nodup_keys
    (fun _ he => OrdMap.mem_entries.mp he) hs
  have hkey : ∀ {i handles}, s.outstandingReads.find? i = some handles →
      i ∈ s.outstandingReads.entries.map Prod.fst := fun hf =>
    List.mem_map.mpr ⟨_, OrdMap.mem_entries_iff.mpr hf, rfl⟩
  have hans : ∀ {i handles}, s.outstandingReads.find? i = some handles → ∀ q ∈ s.recv.others,
      (s'.Answered i q ↔ s.Answered i q ∨ s.Ready i q) := by
    intro i handles hf q hq
    rw [hp.answered]
    exact or_congr_right ⟨And.right, fun hr => ⟨⟨hkey hf, hq⟩, hr⟩⟩
  have hnone : ∀ {i handles}, s.outstandingReads.find? i = some handles →
      (s'.outstandingReads.find? i = none ↔ ∀ q ∈ s.recv.others, s.Ready i q) := by
    intro i handles hf
    refine ⟨fun hno => ?_, fun hall => ?_⟩
    · by_contra hnot
      have := (hmap i handles).mpr ⟨hf, fun hc => hnot hc.2⟩
      rw [hno] at this
      cases this
    · refine Option.eq_none_iff_forall_ne_some.mpr fun handles' hf' => ?_
      exact ((hmap i handles').mp hf').2 ⟨hkey hf, hall⟩
  refine forall₃_congr fun i handles hf => ?_
  rw [hnone hf, forall₂_congr (hans hf)]
  constructor
  · intro h hall q hq
    exact hl.not_answered hq (h.mpr hall q hq)
  · intro h
    exact ⟨fun hall q hq => .inr (hall q hq), fun hall q hq =>
      (hall q hq).resolve_left (h hall q hq)⟩

/-- **The bookkeeping of the READs**, with the elements just erased intact: the receivers are
counted as they should be, and a `pollReadCompletions` erases the entries that it should erase if
and only if the READs of none of them were found completed in parts. -/
theorem bookkept_of_reachable (h : Reachable Init (Step cr) Intact s) :
    s.Counts cr ∧ ∀ s', s.Step cr (.readCompletions none) s' → (s.Erases s' ↔ s.Together) := by
  have hl : s.Linked cr := h.induct (P := Linked cr) (fun _ => linked_init)
    fun _ _ _ _ hl hi hs => linked_step hl hi hs
  exact ⟨hl.counts, fun s' hs => hl.erases_iff hs⟩

end SlowReceiver

namespace Example

/-- Two other receivers, with one host and one buffer for the register of each. -/
def twoReaders : SlowReceiver where
  recv := { tail := 2, others := [1, 2] }
  readers := fun _ => Swmr.Readers.Example.single

/-- Message 0 and its signature, whose WRITE completes. -/
def signed : List SlowLabel :=
  [.recv (.message (le 8 0)), .recv (.signature 0 (hashing.blake3 (le 8 0))),
    .recv (.finishCheck 0), .recv .pollSignatureVerification, .writeCompletion 0 none]

/-- A tick of the readers; `q` completes its READ, of a register not written yet. -/
def readsOne (q : ProcId) : SlowLabel :=
  .tickReader q [[⟨1, true, (some ⟨2, []⟩, none), false⟩]] none

theorem init_twoReaders : twoReaders.Init :=
  ⟨2, [1, 2], fun _ => Swmr.Readers.Example.single, by decide, by decide,
    fun _ => Swmr.Readers.Example.init_single, rfl⟩

end Example

namespace SlowReceiver

/-- The two READs complete in different ticks: both are answered, and the entry is kept. -/
theorem entry_kept : ¬ ∀ s, Reachable Init (Step Example.hashing) Intact s →
    s.Counts Example.hashing ∧
      ∀ s', s.Step Example.hashing (.readCompletions none) s' → s.Erases s' := by
  intro h
  obtain ⟨s, hs, hsee⟩ : ∃ s, Reachable Init (Step Example.hashing) Intact s ∧
      ((s.next Example.hashing (.readCompletions none)).toOption.any fun s' =>
        decide ((s.outstandingReads.find? 0).isSome = true ∧
          (s'.outstandingReads.find? 0).isSome = true ∧
            ∀ q ∈ s.recv.others, s'.Answered 0 q)) = true :=
    exists_reachable Example.twoReaders Example.init_twoReaders
      (Example.signed ++ [Example.readsOne 1, .readCompletions none, Example.readsOne 2])
      (by decide +kernel)
  obtain ⟨s', hs', hsee⟩ := (Option.any_eq_true ..).mp hsee
  obtain ⟨hentry, hkept, hall⟩ := of_decide_eq_true hsee
  obtain ⟨handles, hf⟩ := Option.isSome_iff_exists.mp hentry
  rw [((h s hs).2 s' (toOption_eq_some.mp hs') 0 handles hf).mpr hall] at hkept
  cases hkept

/-- They complete in the same tick: both are counted, and the entry is erased. -/
theorem bookkept_together : ∃ s s', Reachable Init (Step Example.hashing) Intact s ∧
    s.Step Example.hashing (.readCompletions none) s' ∧ s.Counts Example.hashing ∧ s.Together ∧
      s.outstandingReads.size = 1 ∧ s'.outstandingReads.size = 0 ∧
        (s'.recv.msgTail.find? 0).map MessageData.checkedReceivers = some [2, 1] := by
  obtain ⟨s, hs, hsee⟩ : ∃ s, Reachable Init (Step Example.hashing) Intact s ∧
      ((s.next Example.hashing (.readCompletions none)).toOption.any fun s' =>
        decide (s.outstandingReads.entries.map Prod.fst = [0] ∧
          s'.outstandingReads.entries.map Prod.fst = [] ∧
          (∀ q ∈ s.recv.others, s'.Answered 0 q) ∧
            (s'.recv.msgTail.find? 0).map MessageData.checkedReceivers = some [2, 1])) = true :=
    exists_reachable Example.twoReaders Example.init_twoReaders
      (Example.signed ++ [Example.readsOne 1, Example.readsOne 2]) (by decide +kernel)
  obtain ⟨s', hs', hsee⟩ := (Option.any_eq_true ..).mp hsee
  obtain ⟨hkeys, hnone, hall, hcount⟩ := of_decide_eq_true hsee
  have hstep := toOption_eq_some.mp hs'
  have hnone : s'.outstandingReads.entries = [] := List.map_eq_nil_iff.mp hnone
  have herases : s.Erases s' := by
    intro i handles hf
    have hi : i ∈ s.outstandingReads.entries.map Prod.fst :=
      List.mem_map.mpr ⟨_, OrdMap.mem_entries_iff.mpr hf, rfl⟩
    rw [hkeys, List.mem_singleton] at hi
    rw [OrdMap.find?, hnone, hi]
    exact ⟨fun _ => hall, fun _ => rfl⟩
  obtain ⟨hcounts, hiff⟩ := bookkept_of_reachable hs
  refine ⟨s, s', hs, hstep, hcounts, (hiff s' hstep).mp herases, ?_, ?_, hcount⟩
  · rw [OrdMap.size, ← List.length_map Prod.fst, hkeys]
    rfl
  · rw [OrdMap.size, hnone]
    rfl

end SlowReceiver

end Ubft.Broadcast

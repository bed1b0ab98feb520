import Ubft.Broadcast.Echoes
import Ubft.Broadcast.Records
import Ubft.Broadcast.Scanning

/-!
# Broadcast — delivery

What one receiver delivers, whatever the broadcaster, the other receivers, the registers and the
thread pool do: its messages in increasing order of index, none of them twice, each with a
matching echo of every other receiver or with every other receiver's register checked
(`delivers_of_reachable`).  An echo matches when it passes the comparison of
`MessageData::echoed`.
-/

namespace Ubft.Broadcast

/-- A receiver, with the answers to its READs. -/
structure Observed where
  recv : Receiver
  answers : List (Read × Register) := []

/-- The READ that `inp` completes. -/
def Receiver.answered (r : Receiver) : Input → List (Read × Register)
  | .readCompletion k reg => r.outstandingReads[k]?.toList.map fun rd => (rd, reg)
  | _ => []

namespace Observed

variable {cr : Crypto} {o o' : Observed}

/-- One step, with what the receiver answers. -/
def next (cr : Crypto) (o : Observed) (inp : Input) : Except Error Observed :=
  match o.recv.handle cr inp with
  | .error e => .error e
  | .ok recv => .ok ⟨recv, o.answers ++ o.recv.answered inp⟩

/-- A receiver that did nothing. -/
def Init (o : Observed) : Prop :=
  ∃ tail others, 0 < tail ∧ others.Nodup ∧ o = ⟨{ tail, others }, []⟩

/-- The step relation of an observed receiver. -/
def Step (cr : Crypto) (o : Observed) (inp : Input) (o' : Observed) : Prop :=
  o.next cr inp = .ok o'

/-- An echo of `q` matched `m`. -/
def EchoedBy (cr : Crypto) (o : Observed) (q : ProcId) (m : Bytes) : Prop :=
  ∃ e ∈ o.recv.echoed q, index e.bytes = index m ∧ echoMatches cr m e = true

/-- `reg` was read in the register of `q` for message `i`. -/
def ReadFrom (o : Observed) (q : ProcId) (i : Index) (reg : Register) : Prop :=
  ∃ rd, (rd, reg) ∈ o.answers ∧ rd.replica = q ∧ rd.index = i

/-- The register of `q` was checked for message `i`: it held an older value, a signature of the
message taken under `i`, or a signature that was verified and is not valid. -/
def CheckedFor (cr : Crypto) (o : Observed) (q : ProcId) (i : Index) : Prop :=
  ∃ reg, o.ReadFrom q i reg ∧
    (reg.incarnation < expectedIncarnation o.recv.tail i ∨
      cr.verify reg.signature reg.hash = false ∨
      ∃ m ∈ o.recv.received, index m = i ∧ cr.verify reg.signature (cr.blake3 m) = true)

/-- What a receiver delivers. -/
structure Delivers (cr : Crypto) (o : Observed) : Prop where
  increasing : (o.recv.polled.map index).Pairwise (· < ·)
  once : o.recv.polled.Nodup
  size_le : o.recv.msgTail.size ≤ o.recv.tail
  backed : ∀ m ∈ o.recv.polled, (∀ q ∈ o.recv.others, o.EchoedBy cr q m) ∨
    ∀ q ∈ o.recv.others, o.CheckedFor cr q (index m)

/-- The receiver steps, its answers are noted. -/
theorem step_cases {inp : Input} (h : o.Step cr inp o') :
    o.recv.handle cr inp = .ok o'.recv ∧ o'.answers = o.answers ++ o.recv.answered inp := by
  unfold Step next at h
  split at h
  · cases h
  · next r hr => cases h; exact ⟨hr, rfl⟩

/-! ### The invariant -/

/-- What was polled lies below the tail, and is backed. -/
structure Inv (cr : Crypto) (o : Observed) : Prop where
  nodup : o.recv.others.Nodup
  fifo : o.recv.Fifo
  signing : o.recv.Signing cr
  counted : o.recv.Counted
  echoed : Echoed (o.EchoedBy cr) (fun q e => e ∈ o.recv.echoed q) o.recv
  scanned : Scanned (fun q i hash sig => ∃ reg, o.ReadFrom q i reg ∧ reg.hash = hash ∧
    reg.signature = sig) (o.CheckedFor cr) o.recv
  latest : ∀ m ∈ o.recv.polled, ∃ l ∈ o.recv.latestPolledMessage, index m ≤ l
  delivers : o.Delivers cr

theorem inv_init (h : o.Init) : o.Inv cr := by
  obtain ⟨tail, others, ht, hn, rfl⟩ := h
  obtain ⟨hf, hs, hc⟩ := Config.start_sound cr others ht
  refine ⟨hn, hf, hs, hc, ⟨?_, ?_, ?_, ?_⟩, ⟨?_, ?_, fun _ _ hh => nomatch hh⟩, ?_,
    ⟨.nil, List.nodup_nil, Nat.zero_le _, ?_⟩⟩
  · exact fun _ _ hd => nomatch hd
  · exact fun _ _ hd => nomatch hd
  · exact fun _ _ hd => nomatch hd
  · exact fun _ _ he => nomatch he
  · exact fun _ hc => nomatch hc
  · exact fun _ hv => nomatch hv
  · exact fun _ hm => nomatch hm
  · exact fun _ hm => nomatch hm

/-! ### One step -/

/-- What is known of the others does not get less. -/
theorem EchoedBy.step {inp : Input} (hst : o.Step cr inp o') {q : ProcId} {m : Bytes}
    (h : o.EchoedBy cr q m) : o'.EchoedBy cr q m := by
  obtain ⟨e, he, hm⟩ := h
  exact ⟨e, (Receiver.recorded_handle (step_cases hst).1).echoed_mono he, hm⟩

theorem ReadFrom.step {inp : Input} (hst : o.Step cr inp o') {q : ProcId} {i : Index}
    {reg : Register} (h : o.ReadFrom q i reg) : o'.ReadFrom q i reg := by
  obtain ⟨rd, hrd, hq⟩ := h
  refine ⟨rd, ?_, hq⟩
  rw [(step_cases hst).2]
  exact List.mem_append_left _ hrd

/-- What was checked was checked. -/
theorem CheckedFor.step {inp : Input} (hst : o.Step cr inp o') {q : ProcId} {i : Index}
    (h : o.CheckedFor cr q i) : o'.CheckedFor cr q i := by
  obtain ⟨reg, hr, hcase⟩ := h
  have hg := Receiver.Grows.handle (step_cases hst).1
  refine ⟨reg, hr.step hst, ?_⟩
  rw [hg.tail]
  exact hcase.imp_right fun h => h.imp_right fun ⟨m, hm, hv⟩ => ⟨m, hg.received m hm, hv⟩

/-- Echoes are counted for those who sent them. -/
theorem echoed_step {inp : Input} (h : o.Inv cr) (hst : o.Step cr inp o') :
    Echoed (o'.EchoedBy cr) (fun q e => e ∈ o'.recv.echoed q) o'.recv := by
  obtain ⟨hh, -⟩ := step_cases hst
  have hrec := Receiver.recorded_handle hh
  refine Echoed.handle h.nodup (h.echoed.mono (fun q m => .step hst)
    fun q e => hrec.echoed_mono) (fun q e hin hq hl => ?_) (fun q e hin hq hl d hd hma => ?_)
    (fun m hin q hq e he hi hma => ?_) hh
  · subst hin
    exact Receiver.mem_echoed_handle hh hq hl
  · subst hin
    have hidx := (h.fifo.held_received _ _ (Receiver.held_of_find? hd)).2
    exact ⟨e, Receiver.mem_echoed_handle hh hq hl, hidx.symm, hma⟩
  · exact ⟨e, hrec.echoed_mono (h.echoed.buffered q e he), hi, hma⟩

/-- Answers are counted for those who gave them. -/
theorem scanned_step {inp : Input} (h : o.Inv cr) (hst : o.Step cr inp o') :
    Scanned (fun q i hash sig => ∃ reg, o'.ReadFrom q i reg ∧ reg.hash = hash ∧
      reg.signature = sig) (o'.CheckedFor cr) o'.recv := by
  obtain ⟨hh, ha⟩ := step_cases hst
  have hg := Receiver.Grows.handle hh
  have hs : Scanned (fun q i hash sig => ∃ reg, o'.ReadFrom q i reg ∧ reg.hash = hash ∧
      reg.signature = sig) (o'.CheckedFor cr) o.recv :=
    ⟨fun ck hck q hq =>
      have ⟨reg, hr, he⟩ := h.scanned.checks ck hck q hq
      ⟨reg, hr.step hst, he⟩,
    fun v hv q hq hok => (h.scanned.verified v hv q hq hok).step hst,
    fun i d hd q hq => (h.scanned.checked i d hd q hq).step hst⟩
  refine hs.handle (fun _ _ _ _ _ _ ⟨reg, hr, hhash, hsig⟩ hok => ?_)
    (fun k reg rd d hin hrd hd hle => ?_) hh
  · exact ⟨reg, hr, .inr (.inl (by rw [hhash, hsig]; exact hok))⟩
  · have hread : o'.ReadFrom rd.replica rd.index reg := by
      refine ⟨rd, ?_, rfl, rfl⟩
      rw [ha, hin, Receiver.answered, hrd]
      exact List.mem_append_right _ List.mem_cons_self
    refine ⟨⟨reg, hread, rfl, rfl⟩, fun hok => ⟨reg, hread, ?_⟩⟩
    rcases hok with hlt | hsig
    · exact .inl (hg.tail ▸ hlt)
    · -- the signature held is the one that was verified before the READ began
      have hb := h.signing.reads rd (List.mem_of_getElem? hrd)
      obtain ⟨m, hm, hmi, sig, hver, hheld⟩ := (h.signing.begun rd hb).1
      cases (hheld d.held (Receiver.held_of_find? hd)).symm.trans hsig
      exact .inr (.inr ⟨m, hg.received m hm, hmi, hver⟩)

/-- Taking a message makes room for it. -/
theorem size_take {r : Receiver} {m : Bytes} (hm : r.Fresh (index m))
    (h : r.msgTail.size ≤ r.tail) : (r.take m).msgTail.size ≤ r.tail := by
  have hlast : (r.msgTail.insert (index m) { message := m }).size = r.msgTail.size + 1 := by
    rw [OrdMap.size, OrdMap.insert_last fun e he =>
      hm.2 e.1 _ (Receiver.held_of_find? (OrdMap.mem_entries.mp he)), List.length_append]
    rfl
  change (r.emplace m).size ≤ r.tail
  unfold Receiver.emplace
  simp only
  split
  · rw [OrdMap.size_popFront, hlast]
    exact h
  · next hle => exact Nat.not_lt.mp hle

theorem size_of_held {r r' : Receiver} (h : ∀ i h', r'.held i = some h' → ∃ h, r.held i = some h) :
    r'.msgTail.size ≤ r.msgTail.size := by
  refine OrdMap.size_le_of_find? fun k d hd => ?_
  obtain ⟨h', hk⟩ := h k _ (Receiver.held_of_find? hd)
  obtain ⟨d', hd', -⟩ := Option.map_eq_some_iff.mp hk
  exact ⟨d', hd'⟩

/-- The tail bounds what is held. -/
theorem size_step {inp : Input} (h : o.Inv cr) (hst : o.Step cr inp o') :
    o'.recv.msgTail.size ≤ o'.recv.tail := by
  obtain ⟨hh, -⟩ := step_cases hst
  rw [(Receiver.Grows.handle hh).tail]
  have hle := h.delivers.size_le
  cases Receiver.recorded_handle hh with
  | quiet hq => exact (size_of_held fun _ _ => hq.keys).trans hle
  | message hf hs he =>
      exact (size_of_held fun i h' hi => ⟨h', (hs.held i).symm.trans hi⟩).trans (size_take hf hle)
  | echo hq hl hs he =>
      exact (size_of_held fun i h' hi => ⟨h', (hs.held i).symm.trans hi⟩).trans hle
  | poll hi hp hr =>
      rw [hr]
      exact (size_of_held fun i h' hi => ⟨h', (Receiver.held_poll hi).2⟩).trans hle

/-- The message polled lies above those polled before it. -/
theorem inv_step {inp : Input} (h : o.Inv cr) (hst : o.Step cr inp o') : o'.Inv cr := by
  obtain ⟨hh, -⟩ := step_cases hst
  have hg := Receiver.Grows.handle hh
  have hd := h.delivers
  have hbacked : ∀ m ∈ o.recv.polled, (∀ q ∈ o'.recv.others, o'.EchoedBy cr q m) ∨
      ∀ q ∈ o'.recv.others, o'.CheckedFor cr q (index m) := by
    intro m hm
    rw [hg.others]
    exact (hd.backed m hm).imp (fun he q hq => (he q hq).step hst)
      fun hc q hq => (hc q hq).step hst
  have keep : o'.recv.polled = o.recv.polled →
      o'.recv.latestPolledMessage = o.recv.latestPolledMessage → o'.Inv cr := fun hp hl =>
    ⟨hg.others ▸ h.nodup, h.fifo.handle hh, h.signing.handle h.fifo hh,
      h.counted.handle h.fifo h.signing h.nodup hh, echoed_step h hst, scanned_step h hst,
      by rw [hp, hl]; exact h.latest,
      ⟨hp ▸ hd.increasing, hp ▸ hd.once, size_step h hst, by rw [hp]; exact hbacked⟩⟩
  cases Receiver.recorded_handle hh with
  | quiet hq => exact keep hq.polled hq.latestPolledMessage
  | message hf hs he => exact keep hs.polled hs.latestPolledMessage
  | echo hq hl hs he => exact keep hs.polled hs.latestPolledMessage
  | @poll i d _ hi hp hr =>
      have hfind := OrdMap.find?_of_first? hi
      have hheld := Receiver.held_of_find? hfind
      have hidx : index d.message = i := (h.fifo.held_received i d.held hheld).2
      have hbelow : ∀ m ∈ o.recv.polled, index m < i := fun m hm =>
        have ⟨l, hl, hml⟩ := h.latest m hm
        hml.trans_lt (h.fifo.latest_lt l hl i d.held hheld)
      have hpolled : o'.recv.polled = o.recv.polled ++ [d.message] := by rw [hr]
      refine ⟨hg.others ▸ h.nodup, h.fifo.handle hh, h.signing.handle h.fifo hh,
        h.counted.handle h.fifo h.signing h.nodup hh, echoed_step h hst, scanned_step h hst,
        fun m hm => ⟨i, by rw [hr]; rfl, ?_⟩, ⟨?_, ?_, size_step h hst, fun m hm => ?_⟩⟩
      · rw [hpolled] at hm
        rcases List.mem_append.mp hm with hm | hm
        · exact (hbelow m hm).le
        · rw [List.mem_singleton.mp hm, hidx]
      · rw [hpolled, List.map_append, List.pairwise_append]
        refine ⟨hd.increasing, List.pairwise_singleton .., fun k hk k' hk' => ?_⟩
        obtain ⟨m, hm, rfl⟩ := List.mem_map.mp hk
        rw [List.mem_singleton.mp hk', hidx]
        exact hbelow m hm
      · rw [hpolled, List.nodup_append]
        refine ⟨hd.once, List.nodup_singleton _, fun m hm m' hm' he => ?_⟩
        rw [he, List.mem_singleton.mp hm', ] at hm
        exact absurd (hidx ▸ hbelow _ hm) (lt_irrefl _)
      · rw [hpolled] at hm
        rcases List.mem_append.mp hm with hm | hm
        · exact hbacked m hm
        · rw [List.mem_singleton.mp hm, hg.others, hidx]
          unfold MessageData.pollable at hp
          simp only [Bool.or_eq_true, Bool.and_eq_true, decide_eq_true_eq] at hp
          rcases hp with ⟨hlen, hma⟩ | hlen
          · exact .inl fun q hq => (h.echoed.echoed i d hfind hma q
              (h.echoed.mem_echoes hfind hlen hq)).step hst
          · exact .inr fun q hq => (h.scanned.checked i d.held hheld q
              (h.counted.mem_checkedReceivers hheld hlen hq)).step hst

/-- **FIFO delivery.**  In every run, the messages polled have increasing indices, none is polled
twice, the tail holds at most `tail` messages, and all the other receivers echoed a message polled
or all their registers were checked for it. -/
theorem delivers_of_reachable (h : Reachable Init (Step cr) Always o) : o.Delivers cr :=
  (h.induct (P := Inv cr) (fun _ hi => inv_init hi)
    fun _ _ _ _ hi _ hst => inv_step hi hst).delivers

end Observed

namespace Example

/-- A signature is the hash it signs. -/
def hashing : Crypto where
  blake3 m := (m ++ List.replicate 32 0).take 32
  length_blake3 := length_take_padded
  verify sig h := sig == h

/-- Message 0 is echoed before it arrives; message 2 is delivered by the slow path. -/
def bothPaths : List Input :=
  [.echo 1 ⟨le 8 0, fun _ => 0⟩, .message (le 8 0), .poll, .message (le 8 2),
    .signature 2 (hashing.blake3 (le 8 2)), .finishCheck 0, .pollSignatureVerification,
    .writeCompletion 0 fun _ => 0, .readCompletion 0 ⟨0, 0, [], []⟩, .poll]

end Example

namespace Observed

/-- Both are polled. -/
theorem delivers_both : ∃ o, Reachable Init (Step Example.hashing) Always o ∧
    o.recv.polled = [le 8 0, le 8 2] ∧ o.Delivers Example.hashing := by
  obtain ⟨o, ho, hp⟩ : ∃ o, Reachable Init (Step Example.hashing) (fun _ _ => True) o ∧
      decide (o.recv.polled = [le 8 0, le 8 2]) = true :=
    exists_reachable ⟨{ tail := 2, others := [1] }, []⟩ ⟨2, [1], by decide, by decide, rfl⟩
      Example.bothPaths (by decide +kernel)
  exact ⟨o, ho.always, of_decide_eq_true hp, delivers_of_reachable ho.always⟩

end Observed

end Ubft.Broadcast

import Ubft.TailP2p.Queue
import Ubft.TailP2p.Scan

/-!
# TailP2p — one sender, twice

`Link` has a slot as one object, `AsyncSender` the memory it is in.  The sender on bytes that makes
the calls of a link's sender stays abreast of it (`mirrored_of_reachable`), and what it posts are
the bytes of the buffers that the link posts from (`posted_alike`).
-/

namespace Ubft.TailP2p

open SyncSender (slotAt headerSize Queued)

/-- A slot in memory: the header, and the message that it promises. -/
def Slot.bytes (s : Slot) : Bytes :=
  le 8 s.hash.toNat ++ (le 4 s.incarnation.toNat ++ (le 4 s.size ++ s.content))

/-! ### Two senders abreast -/

/-- Both senders have given and posted as much. -/
structure Abreast (s : Sender) (t : SyncSender) : Prop where
  nextAlloc : t.nextAlloc = s.nextAlloc
  nextFree : t.nextFree = s.nextFree
  toSend : t.toSend.length = s.toSend.length
  nextSlot : t.nextSlot = s.nextSlot
  sendBefore : t.sendBefore = s.sendBefore
  nextSend : t.nextSend = s.nextSend
  outstandingWrites : t.outstandingWrites = s.outstandingWrites

namespace Abreast

variable {cfg : Config} {s s' : Sender} {t : SyncSender} {n : Nat}

/-- What is posted is counted, and not looked at. -/
theorem pushToQp {l l' : List Nat} (h : Abreast { s with toSend := l } { t with toSend := l' }) :
    Abreast (s.pushToQp cfg l) (t.pushToQp cfg l') := by
  induction l generalizing s t l' with
  | nil =>
      obtain rfl := List.eq_nil_of_length_eq_zero h.toSend
      exact h
  | cons slot rest ih =>
      obtain ⟨slot', rest', rfl⟩ := List.exists_cons_of_length_eq_add_one h.toSend
      have hgo : t.nextSend < t.sendBefore ∧ t.outstandingWrites < wrDepth ↔
          s.nextSend < s.sendBefore ∧ s.outstandingWrites < wrDepth := by
        rw [h.nextSend, h.sendBefore, h.outstandingWrites]
      unfold Sender.pushToQp SyncSender.pushToQp
      by_cases hlt : s.nextSend < s.sendBefore ∧ s.outstandingWrites < wrDepth
      · rw [if_pos hlt, if_pos (hgo.mpr hlt)]
        exact ih { h with
          toSend := Nat.succ.inj h.toSend
          nextSend := congrArg (· + 1) h.nextSend
          outstandingWrites := congrArg (· + 1) h.outstandingWrites }
      · rw [if_neg hlt, if_neg (mt hgo.mp hlt)]
        exact h

theorem send (h : Abreast s t) : Abreast (s.send cfg) (t.send cfg) :=
  pushToQp { h with sendBefore := h.nextSlot }

/-- The same writes complete. -/
theorem complete (h : Abreast s t) (hs : s.complete n = .ok s') :
    ∃ t', t.complete n = .ok t' ∧ Abreast s' t' := by
  induction n generalizing s t with
  | zero =>
      cases hs
      exact ⟨t, rfl, h⟩
  | succ n ih =>
      unfold Sender.complete at hs
      split at hs
      · cases hs
      · next hne =>
          have hne' : t.nextAlloc ≠ t.nextFree := fun he =>
            hne (h.nextAlloc.symm.trans (he.trans h.nextFree))
          unfold SyncSender.complete
          rw [if_neg hne']
          refine ih ?_ hs
          exact { h with
            nextFree := congrArg (· + 1) h.nextFree
            outstandingWrites := congrArg (· - 1) h.outstandingWrites }

theorem tick (h : Abreast s t) (hs : s.tick cfg n = .ok s') :
    ∃ t', t.tick cfg n = .ok t' ∧ Abreast s' t' := by
  obtain ⟨s₁, hc, hs⟩ := bind_eq_ok.mp hs
  cases hs
  obtain ⟨t₁, ht, h₁⟩ := h.complete hc
  exact ⟨_, bind_eq_ok.mpr ⟨t₁, ht, rfl⟩, h₁.pushToQp⟩

/-- A slot is given by both, or by neither. -/
theorem getSlot {message : Bytes} {o : Option Sender} (h : Abreast s t)
    (hs : s.getSlot cfg message = .ok o) :
    message.length ≤ SyncSender.slotSize cfg ∧
      (t.Full cfg ∧ o = none ∨ ¬ t.Full cfg ∧
        ∃ s', o = some s' ∧ Abreast s' (t.given cfg message.length)) := by
  unfold Sender.getSlot at hs
  split at hs
  · cases hs
  · next hle =>
      refine ⟨Nat.not_lt.mp hle, ?_⟩
      have hfull : t.Full cfg ↔ s.nextAlloc = s.nextFree + cfg.tail := by
        unfold SyncSender.Full
        rw [h.nextAlloc, h.nextFree]
      by_cases hf : s.nextAlloc = s.nextFree + cfg.tail
      · have hnone : s.acquire cfg = none := if_pos hf
        rw [hnone] at hs
        exact .inl ⟨hfull.mpr hf, (Except.ok.inj hs).symm⟩
      · have hsome : s.acquire cfg = some (s.nextAlloc % cfg.tail,
            { s with nextAlloc := s.nextAlloc + 1 }) := if_neg hf
        rw [hsome] at hs
        refine .inr ⟨mt hfull.mp hf, _, (Except.ok.inj hs).symm, ?_⟩
        exact { h with
          nextAlloc := congrArg (· + 1) h.nextAlloc
          nextSlot := congrArg (· + 1) h.nextSlot
          toSend := by
            simp only [SyncSender.given, List.length_append, List.length_singleton, h.toSend] }

end Abreast

/-! ### The same calls -/

/-- What the sender on bytes does when the link takes a step.  A message is written where `getSlot`
tells. -/
def SyncSender.follow (cfg : Config) (s : State) (t : SyncSender) :
    Label → Except SendError SyncSender
  | .getSlot message => do
    match ← t.getSlot cfg message.length with
    | none => return t
    | some (data, t) => return { t with ring := Mem.store t.ring data message }
  | .send => return t.send cfg
  | .tick n => t.tick cfg (min n s.completions)
  | .land | .landByte _ | .receive | .copy _ => return t

/-- The sender on bytes has the messages of the link in its ring. -/
structure Mirrors (cfg : Config) (s : State) (t : SyncSender) : Prop where
  abreast : Abreast s.sender t
  queued : Queued cfg s.written t

namespace Mirrors

variable {cfg : Config} {s s' : State} {t : SyncSender}

theorem start (buffers slots : Nat → Slot) (ring : Nat → UInt8) :
    Mirrors cfg (.start buffers slots) { ring } where
  abreast := ⟨rfl, rfl, rfl, rfl, rfl, rfl, rfl⟩
  queued :=
    { nextAlloc := rfl
      length := rfl
      outstanding := rfl
      sendBefore := Nat.le_refl _
      nextSlot := Nat.le_refl _
      room := Nat.zero_le _
      fits := nofun
      toSend := rfl
      slots := nofun
      writes := rfl }

/-- The message is where the next slot was given. -/
theorem given {sender : Sender} {message : Bytes} (h : Mirrors cfg s t) (hroom : ¬ t.Full cfg)
    (hf : SyncSender.Fits cfg message.length)
    (ha : Abreast sender (t.given cfg message.length)) :
    Mirrors cfg
      { s with
        sender
        written := s.written ++ [message] }
      { t.given cfg message.length with
        ring := Mem.store (t.given cfg message.length).ring (slotAt cfg t.nextAlloc + headerSize)
          message } := by
  refine ⟨{ ha with }, ?_⟩
  have hq := h.queued
  have hslot : slotAt cfg s.written.length = slotAt cfg t.nextAlloc := by
    rw [hq.length, hq.nextAlloc]
  have hstore := (hq.given hroom hf).store List.getElem?_concat_length
    (hq.nextSlot.trans hq.length.ge) (k := 0) message (by rw [Mem.length_load, Nat.zero_add])
  rw [hslot, Nat.add_zero, Mem.length_load, Mem.load_store_self,
    List.set_append_right _ _ (Nat.le_refl _), Nat.sub_self, List.set_cons_zero] at hstore
  exact hstore

/-- Landing is not the sender's. -/
theorem land (h : Mirrors cfg s t) : Mirrors cfg s.land t := by
  obtain ⟨ha, hq⟩ := h
  unfold State.land
  split
  · exact ⟨ha, hq⟩
  · split
    · exact ⟨ha, hq⟩
    · exact ⟨ha, hq⟩
    · exact ⟨ha, hq⟩
    · dsimp only
      split
      · exact ⟨{ ha with }, hq⟩
      · exact ⟨ha, hq⟩

theorem landByte (h : Mirrors cfg s t) (k : Nat) : Mirrors cfg (s.landByte k) t := by
  obtain ⟨ha, hq⟩ := h
  unfold State.landByte
  split
  · exact ⟨ha, hq⟩
  · split
    · exact ⟨ha, hq⟩
    · exact ⟨ha, hq⟩

/-- **Every step of the link is one of the sender on bytes.** -/
theorem next {l : Label} (h : Mirrors cfg s t) (hm : s.Memory cfg) (hf : s.Fits cfg l)
    (hs : s.next cfg l = .ok s') : ∃ t', t.follow cfg s l = .ok t' ∧ Mirrors cfg s' t' := by
  cases l with
  | getSlot message =>
      obtain ⟨o, ho, hs⟩ := bind_eq_ok.mp hs
      obtain ⟨hle, ⟨hfull, rfl⟩ | ⟨hroom, sender, rfl, ha⟩⟩ := h.abreast.getSlot ho
      · cases hs
        refine ⟨t, bind_eq_ok.mpr ⟨_, SyncSender.getSlot_eq_ok.mpr ⟨hle, rfl⟩, ?_⟩, h⟩
        rw [if_pos hfull]
        rfl
      · cases hs
        refine ⟨_, bind_eq_ok.mpr ⟨_, SyncSender.getSlot_eq_ok.mpr ⟨hle, rfl⟩, ?_⟩,
          h.given hroom ⟨hf.2.1, hf.2.2.1, hf.2.2.2.1⟩ ha⟩
        rw [if_neg hroom]
        rfl
  | send =>
      cases hs
      exact ⟨_, rfl, h.abreast.send, h.queued.send.1⟩
  | tick n =>
      obtain ⟨sender, ho, hs⟩ := bind_eq_ok.mp hs
      cases hs
      obtain ⟨t', ht, ha⟩ := h.abreast.tick ho
      refine ⟨t', ht, ha, (h.queued.tick ?_ ht).1⟩
      rw [h.abreast.outstandingWrites]
      have hposted := hm.sender.posted
      unfold State.completions
      omega
  | land =>
      cases hs
      exact ⟨t, rfl, h.land⟩
  | landByte k =>
      cases hs
      exact ⟨t, rfl, h.landByte k⟩
  | receive | copy =>
      cases hs
      exact ⟨t, rfl, h.abreast, h.queued⟩

/-- **What is on its way.**  The bytes of the `i`-th write that has not landed are those of the
buffer that the link posted. -/
theorem posted {i : Nat} {p : Post} (h : Mirrors cfg s t) (hm : s.Memory cfg)
    (hp : s.sender.posts[i]? = some p) :
    t.writes[s.landed + i]? = some ⟨slotAt cfg p.remote, (s.sender.buffers p.slot).bytes⟩ := by
  have hk := hm.sender
  rw [hk.posts, List.getElem?_map, Option.map_eq_some_iff] at hp
  obtain ⟨m, hr, rfl⟩ := hp
  obtain ⟨hi, hm'⟩ := List.getElem?_eq_some_iff.mp hr
  rw [List.length_range'] at hi
  rw [List.getElem_range', Nat.one_mul] at hm'
  subst hm'
  have hsend : s.landed + i < s.sender.nextSend := by omega
  have hslot := hsend.trans_le (hk.sendBefore.trans hk.nextSlot)
  have hfree := Nat.add_le_add_right (hk.nextFree.trans (Nat.le_add_right s.landed i)) cfg.tail
  have hw := hk.written _ hslot hfree
  have hlap : (s.landed + i) / cfg.tail + 1 < 2 ^ 32 := by
    have := Nat.div_lt_of_lt_mul (hslot.trans hm.few)
    omega
  have hmsg : s.written[s.landed + i]? = some (s.message (s.landed + i)) := by
    rw [State.message, List.getD_eq_getElem?_getD,
      List.getElem?_eq_getElem (hslot.trans_eq hm.length.symm), Option.getD_some]
  rw [h.queued.writes, List.getElem?_mapIdx, h.abreast.nextSend, List.getElem?_take_of_lt hsend,
    hmsg, Option.map_some, Write.of, Slot.bytes, hw.content, hw.size, hw.incarnation,
    hk.hashed _ hsend hfree, slotAt, slotAt, Nat.mod_mod]
  have hinc : (State.msgId cfg (s.landed + i)).incarnation.toNat =
      (s.landed + i) / cfg.tail + 1 := Nat.mod_eq_of_lt hlap
  rw [hinc]

end Mirrors

/-! ### Runs -/

/-- A link, and a sender on bytes that makes the calls of the link's. -/
structure Twins where
  link : State
  sender : SyncSender

namespace Twins

/-- Both rings hold anything. -/
def Init (p : Twins) : Prop := ∃ buffers slots ring, p = ⟨.start buffers slots, { ring }⟩

/-- The link takes a step, and its sender's twin makes the same call. -/
def Step (cfg : Config) (p : Twins) (l : Label) (p' : Twins) : Prop :=
  p.link.next cfg l = .ok p'.link ∧ p.sender.follow cfg p.link l = .ok p'.sender

end Twins

variable {cfg : Config} {s : State}

/-- **A forward simulation**: a run of the link is half of a run of both. -/
theorem mirrored_of_reachable (ht : 0 < cfg.tail)
    (h : Reachable State.Init (State.Step cfg) (fun s l => s.Fits cfg l ∧ s.Intact cfg l) s) :
    ∃ t, Reachable Twins.Init (Twins.Step cfg)
        (fun p l => p.link.Fits cfg l ∧ p.link.Intact cfg l) ⟨s, t⟩ ∧ Mirrors cfg s t := by
  induction h with
  | init h =>
      obtain ⟨buffers, slots, rfl⟩ := h
      exact ⟨_, .init ⟨buffers, slots, fun _ => 0, rfl⟩, Mirrors.start buffers slots _⟩
  | step hr hg hs ih =>
      obtain ⟨t, hreach, h⟩ := ih
      obtain ⟨t', ht', h'⟩ := h.next (State.inv_of_reachable ht hr).1 hg.1 hs
      exact ⟨t', hreach.step hg ⟨hs, ht'⟩, h'⟩

/-- In every run of the link there is a sender on bytes that posts what the link posts. -/
theorem posted_alike (ht : 0 < cfg.tail)
    (h : Reachable State.Init (State.Step cfg) (fun s l => s.Fits cfg l ∧ s.Intact cfg l) s) :
    ∃ t, Reachable Twins.Init (Twins.Step cfg)
        (fun p l => p.link.Fits cfg l ∧ p.link.Intact cfg l) ⟨s, t⟩ ∧
      ∀ i p, s.sender.posts[i]? = some p → t.writes[s.landed + i]? =
        some ⟨slotAt cfg p.remote, (s.sender.buffers p.slot).bytes⟩ := by
  obtain ⟨t, hreach, h'⟩ := mirrored_of_reachable ht h
  exact ⟨t, hreach, fun i p hp => h'.posted (State.inv_of_reachable ht h).1 hp⟩

end Ubft.TailP2p

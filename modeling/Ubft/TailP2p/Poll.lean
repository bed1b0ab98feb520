import Ubft.TailP2p.Scan

/-!
# TailP2p — polls

Once the sender stopped, the receiver delivers all that is still in memory, poll after poll, unless
there is one slot only: its message never is on a falling edge (`delivered_iff`).
-/

namespace Ubft.TailP2p

open Cursors (At Reads)

/-! ### A try -/

section

variable {cfg : Config} {slots : Nat → Slot} {c c' : Cursors} {slot : Slot} {id : MsgId}

theorem tryPoll_empty
    (h : (slots c.nextToScan.index).incarnation < c.bestToDeliver.incarnation) :
    tryPoll cfg slots c = (c, .empty) := if_pos h

/-- A message that is wanted, whole or not. -/
theorem tryPoll_wants (hs : slots c.nextToScan.index = slot)
    (hid : c.scanning slot.incarnation = id)
    (h : ¬ slot.incarnation < c.bestToDeliver.incarnation) (hw : c.Wants id) :
    tryPoll cfg slots c = if slot.hash = cfg.hash slot.content then
      (c.deliver cfg id, .polled ⟨id, slot.content⟩) else (c, .straggling) := by
  subst hs hid
  exact (if_neg h).trans (if_pos hw)

theorem tryPoll_straggle (hs : slots c.nextToScan.index = slot)
    (hid : c.scanning slot.incarnation = id)
    (h : ¬ slot.incarnation < c.bestToDeliver.incarnation) (hw : ¬ c.Wants id) :
    tryPoll cfg slots c = (c.straggle cfg id, .straggling) := by
  subst hs hid
  exact (if_neg h).trans (if_neg hw)

namespace Receiver

variable {r : Receiver} {n : Nat} {d : Delivery}

theorem poll_zero (r : Receiver) : r.poll cfg slots 0 = { r with pc := .idle } :=
  congrArg (Receiver.mk r.cursors .idle) (List.append_nil _)

theorem poll_of_polled (h : tryPoll cfg slots r.cursors = (c, .polled d)) :
    r.poll cfg slots (n + 1) = ⟨c, .idle, r.delivered ++ [d]⟩ := by
  rw [Receiver.poll, TailP2p.poll, h]
  rfl

theorem poll_of_empty (h : tryPoll cfg slots r.cursors = (c, .empty)) :
    r.poll cfg slots (n + 1) = ⟨c, .idle, r.delivered⟩ := by
  rw [Receiver.poll, TailP2p.poll, h]
  exact congrArg (Receiver.mk c .idle) (List.append_nil _)

theorem poll_of_straggling (h : tryPoll cfg slots r.cursors = (c, .straggling)) :
    r.poll cfg slots (n + 1) = { r with cursors := c }.poll cfg slots n := by
  rw [Receiver.poll, TailP2p.poll, h]
  rfl

end Receiver

end

namespace State

variable {cfg : Config} {s s' : State} {b y : Nat} {phase : Option Nat}

/-! ### A poll is made of steps -/

/-- A step of the receiver. -/
def Receives (cfg : Config) (s s' : State) : Prop :=
  Step cfg s .receive s' ∨ ∃ k, Step cfg s (.copy k) s'

/-- Any number of steps of the receiver. -/
abbrev Receiving (cfg : Config) : State → State → Prop := Relation.ReflTransGen (Receives cfg)

theorem receive_receiving (cfg : Config) (s : State) :
    Receiving cfg s { s with receiver := s.receiver.receive cfg s.slots } :=
  .single (.inl rfl)

/-- The bytes are copied in order. -/
theorem copy_receiving {left size : Nat} {incarnation : UInt32} {hash : UInt64} (n : Nat)
    (hpc : s.receiver.pc = .copy left incarnation hash size fun _ => none) :
    Receiving cfg s { s with receiver := { s.receiver with
      pc := .copy left incarnation hash size fun k =>
        if k < n then some ((s.slots s.receiver.cursors.nextToScan.index).data k) else none } } := by
  induction n with
  | zero =>
      simp only [Nat.not_lt_zero, if_false]
      rw [← hpc]
  | succ n ih =>
      refine ih.tail (.inr ⟨n, congrArg Except.ok ?_⟩)
      refine congrArg (fun r => { s with receiver := r }) ?_
      refine congrArg (fun f => { s.receiver with pc := .copy left incarnation hash size f }) ?_
      funext k
      by_cases hk : k = n
      · rw [hk, Function.update_self, if_pos n.lt_succ_self]
      · rw [Function.update_of_ne hk]
        exact if_congr (by omega) rfl rfl

theorem copied_data (slot : Slot) : Receiver.copied slot.size
    (fun k => if k < slot.size then some (slot.data k) else none) = slot.content := by
  refine List.map_congr_left fun k hk => ?_
  dsimp only
  rw [if_pos (List.mem_range.mp hk)]
  rfl

/-- The receiver goes on at `pc`. -/
def setPc (s : State) (pc : Pc) : State := { s with receiver := { s.receiver with pc } }

/-- A poll during which nothing lands. -/
theorem poll_receiving (cfg : Config) (n : Nat) (s : State) :
    Receiving cfg (s.setPc (.again n)) { s with receiver := s.receiver.poll cfg s.slots n } := by
  induction n generalizing s with
  | zero =>
      rw [Receiver.poll_zero]
      exact .refl
  | succ n ih =>
      generalize hslot : s.slots s.receiver.cursors.nextToScan.index = slot
      have hscan := receive_receiving cfg (s.setPc (.scan n))
      -- the branches of `tryPoll`, each the steps of the thread up to its end
      by_cases hlt : slot.incarnation < s.receiver.cursors.bestToDeliver.incarnation
      · rw [Receiver.poll_of_empty (tryPoll_empty (hslot ▸ hlt))]
        simp only [setPc, Receiver.receive, hslot, if_pos hlt] at hscan
        exact hscan
      · simp only [setPc, Receiver.receive, hslot, if_neg hlt] at hscan
        refine hscan.trans ?_
        have hhash := receive_receiving cfg (s.setPc (.hash n slot.incarnation))
        simp only [setPc, Receiver.receive, hslot] at hhash
        refine hhash.trans ?_
        have hsize := receive_receiving cfg (s.setPc (.size n slot.incarnation slot.hash))
        by_cases hw : s.receiver.cursors.Wants (s.receiver.cursors.scanning slot.incarnation)
        · simp only [setPc, Receiver.receive, hslot, if_pos hw] at hsize
          refine hsize.trans ((copy_receiving slot.size rfl).trans ?_)
          have hcopy := receive_receiving cfg (s.setPc (.copy n slot.incarnation slot.hash slot.size
            fun k => if k < slot.size then some (slot.data k) else none))
          have hall : ∀ k < slot.size,
              (if k < slot.size then some (slot.data k) else none).isSome := fun k hk => by
            rw [if_pos hk]
            rfl
          have htry : tryPoll cfg s.slots s.receiver.cursors = _ :=
            tryPoll_wants hslot rfl hlt hw
          by_cases hh : slot.hash = cfg.hash slot.content
          · rw [if_pos hh] at htry
            rw [Receiver.poll_of_polled htry]
            simp only [setPc, Receiver.receive, hslot, if_pos hall, copied_data, if_pos hh, ne_eq,
              not_true_eq_false, if_false] at hcopy
            simp only [hslot]
            exact hcopy
          · rw [if_neg hh] at htry
            rw [Receiver.poll_of_straggling htry]
            simp only [setPc, Receiver.receive, hslot, if_pos hall, copied_data, if_neg hh, ne_eq,
              not_true_eq_false, if_false] at hcopy
            simp only [hslot]
            exact hcopy.trans (ih s)
        · simp only [setPc, Receiver.receive, hslot, if_neg hw] at hsize
          rw [Receiver.poll_of_straggling (tryPoll_straggle hslot rfl hlt hw)]
          refine hsize.trans ?_
          exact ih { s with receiver := { s.receiver with
            cursors := s.receiver.cursors.straggle cfg _ } }

/-! ### The sender stopped -/

/-- What was sent landed. -/
def Quiet (s : State) : Prop := s.landed = s.sender.sendBefore

theorem Memory.quiet (hm : Memory cfg s) (hq : s.Quiet) :
    s.incarnations = s.landed ∧ s.hashes = s.landed ∧ s.sizes = s.landed := by
  have hst : s.stage = .none := by
    by_contra hne
    exact Nat.not_lt.mpr hm.sender.sendBefore (hq ▸ hm.landing hne)
  rw [incarnations, hashes, sizes, hst]
  exact ⟨rfl, rfl, rfl⟩

/-- A try finds the last message in the slot. -/
theorem Scans.tryPoll (hm : Memory cfg s) (hq : s.Quiet) (h : Scans cfg s b phase)
    (hb : b < s.incarnations) :
    ∃ y, Reads cfg s.incarnations b phase y ∧ s.incarnations ≤ y + cfg.tail ∧
      tryPoll cfg s.slots s.receiver.cursors =
        if s.receiver.cursors.Wants (msgId cfg y) then
          (s.receiver.cursors.deliver cfg (msgId cfg y), .polled (s.delivery cfg y))
        else (s.receiver.cursors.straggle cfg (msgId cfg y), .straggling) := by
  obtain ⟨hinc, hhashes, hsizes⟩ := hm.quiet hq
  rw [hinc] at hb ⊢
  have hlt := Nat.mod_lt (Cursors.target b phase) hm.tail_pos
  have hidx : Cursors.target b phase % cfg.tail < s.landed := by
    cases hph : phase with
    | none => exact Nat.lt_of_le_of_lt (Nat.mod_le b cfg.tail) hb
    | some p =>
        obtain ⟨-, hp, hle⟩ := h.cursors.scanning p hph
        rw [hph] at hlt
        omega
  obtain ⟨y, hy, hlap, hmod⟩ := Ring.exists_newest hm.tail_pos hlt hidx
  have hreads : Reads cfg s.landed b phase y := by
    refine ⟨hmod, hy, ?_, fun p hp => ?_⟩
    · cases hph : phase with
      | none =>
          subst hph
          refine Nat.not_lt.mp fun hyb => ?_
          have := Ring.add_le_of_mod_eq hmod hyb
          change y + cfg.tail ≤ b at this
          omega
      | some p =>
          obtain ⟨-, hp, hle⟩ := h.cursors.scanning p hph
          omega
    · have := (h.cursors.scanning p hp).2.1
      omega
  have hyn := Nat.lt_of_lt_of_le hy (hinc ▸ hm.few')
  have hbn := Nat.lt_of_le_of_lt hreads.best hyn
  refine ⟨y, hreads, hlap, ?_⟩
  generalize hslot : s.slots s.receiver.cursors.nextToScan.index = slot
  have hy' : s.slots (y % cfg.tail) = slot := by
    rw [← hslot, h.cursors.next]
    exact congrArg s.slots hmod
  -- every field of the slot is that of the message `y`
  have hi : slot.incarnation = (msgId cfg y).incarnation :=
    hy' ▸ hm.incarnation y (hinc.symm ▸ hy) (hinc.symm ▸ hlap)
  have hh : slot.hash = cfg.hash (s.message y) :=
    hy' ▸ hm.hash y (hhashes.symm ▸ hy) (hhashes.symm ▸ hlap)
  have hc : slot.content = s.message y := by
    have hs : slot.size = (s.message y).length :=
      hy' ▸ hm.size y (hsizes.symm ▸ hy) (hsizes.symm ▸ hlap)
    have hd := hm.data y hy (hsizes.symm ▸ hlap)
    rw [hy'] at hd
    refine Eq.trans ?_ (map_getD (s.message y))
    rw [Slot.content, hs]
    exact List.map_congr_left fun k hk => hd k (List.mem_range.mp hk)
  have hid : s.receiver.cursors.scanning slot.incarnation = msgId cfg y := by
    rw [Cursors.scanning, h.cursors.next, hi]
    exact congrArg (MsgId.mk _) hmod.symm
  -- the slot is not taken for an empty one
  have hge : ¬ slot.incarnation < s.receiver.cursors.bestToDeliver.incarnation := by
    rw [h.cursors.best, hi, UInt32.lt_iff_toNat_lt, toNat_incarnation hyn, toNat_incarnation hbn]
    exact Nat.not_lt.mpr (Nat.succ_le_succ (Nat.div_le_div_right hreads.best))
  by_cases hw : s.receiver.cursors.Wants (msgId cfg y)
  · rw [tryPoll_wants hslot hid hge hw, if_pos hw, hc, if_pos hh]
    rfl
  · rw [tryPoll_straggle hslot hid hge hw, if_neg hw]

/-- How many tries there may still be before the last of the first `n` messages is delivered. -/
def weight (cfg : Config) (n b : Nat) : Option Nat → Nat
  | none => if n ≤ b + cfg.tail then n - b else n + cfg.tail + 1
  | some p => n + cfg.tail - p

/-- There is a falling edge after the last message, or none is needed. -/
def Edge (cfg : Config) (n b : Nat) : Prop := 2 ≤ cfg.tail ∨ n ≤ b + 1

theorem weight_deliver (h : s.receiver.cursors.At cfg s.incarnations b phase)
    (hy : Reads cfg s.incarnations b phase y) (hn : s.incarnations ≤ cfg.tail * (2 ^ 32 - 1))
    (hw : s.receiver.cursors.Wants (msgId cfg y)) (hlap : s.incarnations ≤ y + cfg.tail) :
    weight cfg s.incarnations (y + 1) none < weight cfg s.incarnations b phase := by
  have hlt := hy.landed
  have hle : s.incarnations ≤ y + 1 + cfg.tail := by omega
  rw [weight, if_pos hle]
  rcases (Cursors.wants_iff hn h hy).mp hw with ⟨rfl, rfl⟩ | ⟨p, hp, he, -⟩
  · rw [weight, if_pos hlap]
    omega
  · have := (h.scanning p hp).2.1
    cases hp
    rw [weight]
    omega

theorem weight_straggle (h : s.receiver.cursors.At cfg s.incarnations b phase)
    (hy : Reads cfg s.incarnations b phase y) (hn : s.incarnations ≤ cfg.tail * (2 ^ 32 - 1))
    (hw : ¬ s.receiver.cursors.Wants (msgId cfg y)) (hlap : s.incarnations ≤ y + cfg.tail)
    (he : Edge cfg s.incarnations b) (ht : 0 < cfg.tail) :
    weight cfg s.incarnations b (some y) < weight cfg s.incarnations b phase := by
  have hlt := hy.landed
  have hle := hy.best
  rw [Cursors.wants_iff hn h hy] at hw
  cases phase with
  | none =>
      have hne : y ≠ b := fun heq => hw (.inl ⟨rfl, heq⟩)
      have hfar : ¬ s.incarnations ≤ b + cfg.tail := fun hn =>
        hne (Ring.eq_of_mod_eq hy.slot (by omega) (by omega))
      rw [weight, weight, if_neg hfar]
      omega
  | some p =>
      obtain ⟨-, hp, hbp⟩ := h.scanning p rfl
      have hlap := hy.scanning p rfl
      have hpy : p < y := by
        by_contra hge
        have hmod : (y + cfg.tail) % cfg.tail = (p + 1) % cfg.tail := by
          rw [Nat.add_mod_right]
          exact hy.slot
        have heq := Ring.eq_of_mod_eq hmod (by omega) (by omega)
        rcases he with h2 | hb
        · exact hw (.inr ⟨p, rfl, heq, by omega⟩)
        · omega
      rw [weight, weight]
      omega

/-- At most `n` tries get closer to the last message. -/
theorem Scans.poll (hm : Memory cfg s) (hq : s.Quiet) (hpc : s.receiver.pc = .idle)
    (h : Scans cfg s b phase) (hb : b < s.incarnations) (he : Edge cfg s.incarnations b) (n : Nat) :
    ∃ b' phase', Scans cfg { s with receiver := s.receiver.poll cfg s.slots n } b' phase' ∧
      b ≤ b' ∧ weight cfg s.incarnations b' phase' + min n 1 ≤
        weight cfg s.incarnations b phase := by
  induction n generalizing s phase with
  | zero =>
      rw [Receiver.poll_zero]
      exact ⟨b, phase, ⟨h.cursors, h.best, h.sublist, h.last, trivial⟩, Nat.le_refl _,
        Nat.le_refl _⟩
  | succ n ih =>
      obtain ⟨y, hy, hlap, htry⟩ := h.tryPoll hm hq hb
      by_cases hw : s.receiver.cursors.Wants (msgId cfg y)
      · rw [if_pos hw] at htry
        rw [Receiver.poll_of_polled htry]
        refine ⟨y + 1, none, h.deliver hm hy hw, Nat.le_succ_of_le hy.best, ?_⟩
        have := weight_deliver h.cursors hy hm.few' hw hlap
        omega
      · rw [if_neg hw] at htry
        rw [Receiver.poll_of_straggling htry]
        have hs := h.straggle hm hy hw 0
        obtain ⟨b', phase', hs', hle, hlt⟩ := ih (s := { s with receiver := { s.receiver with
          cursors := s.receiver.cursors.straggle cfg (msgId cfg y) } }) (hm.setReceiver _) hq hpc
          ⟨hs.cursors, hs.best, hs.sublist, hs.last, hpc ▸ trivial⟩ hb he
        refine ⟨b', phase', hs', hle, ?_⟩
        have := weight_straggle h.cursors hy hm.few' hw hlap he hm.tail_pos
        change weight cfg s.incarnations b' phase' + _ ≤ weight cfg s.incarnations b (some y) at hlt
        omega

/-- With one slot, a receiver that missed a message before the last one misses all of them. -/
theorem Scans.poll_one (hm : Memory cfg s) (hq : s.Quiet) (hpc : s.receiver.pc = .idle)
    (h : Scans cfg s b phase) (hb : b + 1 < s.incarnations) (ht : cfg.tail = 1) (n : Nat) :
    ∃ phase', Scans cfg { s with receiver := s.receiver.poll cfg s.slots n } b phase' := by
  induction n generalizing s phase with
  | zero =>
      rw [Receiver.poll_zero]
      exact ⟨phase, h.cursors, h.best, h.sublist, h.last, trivial⟩
  | succ n ih =>
      obtain ⟨y, hy, hlap, htry⟩ := h.tryPoll hm hq (Nat.lt_of_succ_lt hb)
      have hw : ¬ s.receiver.cursors.Wants (msgId cfg y) := by
        rw [Cursors.wants_iff hm.few' h.cursors hy]
        rintro (⟨-, rfl⟩ | ⟨p, hp, -, hlt⟩)
        · omega
        · have := (h.cursors.scanning p hp).2.1
          omega
      rw [if_neg hw] at htry
      rw [Receiver.poll_of_straggling htry]
      have hs := h.straggle hm hy hw 0
      exact ih (s := { s with receiver := { s.receiver with
        cursors := s.receiver.cursors.straggle cfg (msgId cfg y) } }) (hm.setReceiver _) hq hpc
        ⟨hs.cursors, hs.best, hs.sublist, hs.last, hpc ▸ trivial⟩ hb

/-! ### Repeated polls -/

/-- Polling changes the receiver alone. -/
theorem iterate_poll (cfg : Config) (s : State) (k : Nat) :
    ∃ receiver, (State.poll cfg)^[k] s = { s with receiver } ∧
      (s.receiver.pc = .idle → receiver.pc = .idle) ∧
      ∀ d ∈ s.receiver.delivered, d ∈ receiver.delivered := by
  induction k generalizing s with
  | zero => exact ⟨s.receiver, rfl, id, fun _ => id⟩
  | succ k ih =>
      obtain ⟨receiver, he, hpc, hd⟩ := ih (s.poll cfg)
      exact ⟨receiver, he, fun _ => hpc rfl, fun d hm => hd d (List.mem_append_left _ hm)⟩

/-- Polled often enough, the receiver looks for the message after the last one. -/
theorem exists_poll (hm : Memory cfg s) (hq : s.Quiet) (hpc : s.receiver.pc = .idle)
    (h : Scans cfg s b phase) (he : Edge cfg s.incarnations b) :
    ∃ k phase', Scans cfg ((State.poll cfg)^[k] s) s.incarnations phase' := by
  have hstep : ∀ n s', (∃ receiver b phase, s' = { s with receiver } ∧ receiver.pc = .idle ∧
      Scans cfg s' b phase ∧ Edge cfg s.incarnations b ∧ weight cfg s.incarnations b phase = n) →
      (∃ phase, Scans cfg s' s.incarnations phase) ∨
      ∃ m < n, ∃ receiver b phase, s'.poll cfg = { s with receiver } ∧ receiver.pc = .idle ∧
        Scans cfg (s'.poll cfg) b phase ∧ Edge cfg s.incarnations b ∧
        weight cfg s.incarnations b phase = m := by
    rintro n s' ⟨receiver, b, phase, rfl, hpc, h, he, rfl⟩
    rcases Nat.lt_or_eq_of_le h.best with hb | hb
    · obtain ⟨b', phase', hs', hle, hlt⟩ := h.poll (hm.setReceiver receiver) hq hpc hb he cfg.tail
      refine .inr ⟨_, ?_, _, b', phase', rfl, rfl, hs', he.imp_right fun hn => ?_, rfl⟩
      · have := hm.tail_pos
        change weight cfg s.incarnations b' phase' + _ ≤ weight cfg s.incarnations b phase at hlt
        omega
      · exact hn.trans (Nat.succ_le_succ hle)
    · exact .inl ⟨phase, hb ▸ h⟩
  obtain ⟨k, phase', hk⟩ := exists_iterate hstep ⟨s.receiver, b, phase, rfl, hpc, h, he, rfl⟩
  exact ⟨k, phase', hk⟩

/-- With a single slot the scan stays where it is. -/
theorem iterate_poll_one (hm : Memory cfg s) (hq : s.Quiet) (hpc : s.receiver.pc = .idle)
    (h : Scans cfg s b phase) (hb : b + 1 < s.incarnations) (ht : cfg.tail = 1) (k : Nat) :
    ∃ phase', Scans cfg ((State.poll cfg)^[k] s) b phase' := by
  induction k generalizing s phase with
  | zero => exact ⟨phase, h⟩
  | succ k ih =>
      obtain ⟨phase', hs⟩ := h.poll_one hm hq hpc hb ht cfg.tail
      exact ih (s := s.poll cfg) (hm.setReceiver _) hq rfl hs hb

/-- What is delivered was sent, in order. -/
theorem Scans.sublist_sent (hm : Memory cfg s) (h : Scans cfg s b phase) :
    s.receiver.delivered.Sublist (s.sent cfg) :=
  h.sublist.trans ((List.range_sublist.mpr (h.best.trans (s.incarnations_le_hashes.trans
    (hm.hashes_le_nextSend.trans hm.sender.sendBefore)))).map _)

theorem mem_last {n : Nat} {d : Delivery} (h : s.sender.sendBefore = n)
    (hd : d ∈ (s.sent cfg).drop (s.sender.sendBefore - cfg.tail)) :
    ∃ m < n, n ≤ m + cfg.tail ∧ d = s.delivery cfg m := by
  obtain ⟨k, hk, rfl⟩ := List.mem_iff_getElem.mp hd
  rw [List.length_drop, sent, List.length_map, List.length_range, h] at hk
  refine ⟨n - cfg.tail + k, by omega, by omega, ?_⟩
  simp only [List.getElem_drop, sent, List.getElem_map, List.getElem_range, h]
  rfl

/-- With one slot, the last message is not delivered. -/
theorem not_delivered_last (hm : Memory cfg s) (hq : s.Quiet) (hpc : s.receiver.pc = .idle)
    (h : Scans cfg s b phase) (hb : b + 1 < s.incarnations) (ht : cfg.tail = 1) (k : Nat) :
    ∃ d ∈ (s.sent cfg).drop (s.sender.sendBefore - cfg.tail),
      d ∉ ((State.poll cfg)^[k] s).receiver.delivered := by
  have hn : s.incarnations = s.sender.sendBefore := (hm.quiet hq).1.trans hq
  refine ⟨s.delivery cfg (s.incarnations - 1), ?_, fun hd => ?_⟩
  · rw [← hn, ht]
    refine List.mem_iff_getElem.mpr ⟨0, ?_, ?_⟩
    · rw [List.length_drop, sent, List.length_map, List.length_range]
      omega
    · simp only [List.getElem_drop, sent, List.getElem_map, List.getElem_range]
      rfl
  · obtain ⟨phase', hs⟩ := iterate_poll_one hm hq hpc h hb ht k
    obtain ⟨m, hmb, he⟩ := List.mem_map.mp (hs.sublist.subset hd)
    have hmb := List.mem_range.mp hmb
    have hid : msgId cfg m = msgId cfg (s.incarnations - 1) := congrArg Delivery.id he
    have hfew := hm.few'
    have heq := msgId_inj (by omega) (by omega) (congrArg MsgId.incarnation hid)
      (congrArg MsgId.index hid)
    omega

/-- **The link.**  The messages delivered are some of those sent, in order.  Once the sender
stopped, the receiver delivers all of the last `tail` ones, if and only if there are two slots or
it looks for the last message or a later one. -/
theorem delivered_iff (cfg : Config) (ht : 0 < cfg.tail) {s : State}
    (h : Reachable Init (Step cfg) (fun s l => s.Fits cfg l ∧ s.Intact cfg l) s) :
    s.receiver.delivered.Sublist (s.sent cfg) ∧
      (s.Quiet → s.receiver.pc = .idle →
        ((∃ K, ∀ k, K ≤ k → ∀ d ∈ (s.sent cfg).drop (s.sender.sendBefore - cfg.tail),
          d ∈ ((State.poll cfg)^[k] s).receiver.delivered) ↔
            2 ≤ cfg.tail ∨
              ∀ last ∈ (s.sent cfg).getLast?, ¬ s.receiver.cursors.bestToDeliver < last.id)) := by
  obtain ⟨hm, b, phase, hs⟩ := inv_of_reachable ht h
  refine ⟨hs.sublist_sent hm, fun hq hpc => ?_⟩
  have hn : s.incarnations = s.sender.sendBefore := (hm.quiet hq).1.trans hq
  have hfew : s.incarnations < cfg.tail * (2 ^ 32 - 1) :=
    hn ▸ Nat.lt_of_le_of_lt hm.sender.nextSlot hm.few
  have hbest := hs.best
  -- The last message, by its number.
  have hlast : (∀ last ∈ (s.sent cfg).getLast?, ¬ s.receiver.cursors.bestToDeliver < last.id) ↔
      s.incarnations ≤ b + 1 := by
    rw [hs.cursors.best, sent, ← hn]
    cases hi : s.incarnations with
    | zero => exact ⟨fun _ => Nat.zero_le _, fun _ => nofun⟩
    | succ n =>
        rw [List.range_succ, List.map_append, List.map_singleton, List.getLast?_concat]
        have hlt : msgId cfg b < msgId cfg n ↔ b < n := msgId_lt (by omega) (by omega)
        constructor
        · intro hno
          have := hno _ rfl
          rw [hlt] at this
          omega
        · rintro hle last hl
          cases hl
          rw [hlt]
          omega
  rw [hlast]
  constructor
  · rintro ⟨K, hK⟩
    by_contra hno
    -- with one slot the last message is not delivered
    have hne : cfg.tail = 1 ∧ b + 1 < s.incarnations := by omega
    obtain ⟨d, hd, hnot⟩ := not_delivered_last hm hq hpc hs hne.2 hne.1 K
    exact hnot (hK K (Nat.le_refl _) d hd)
  · intro he
    obtain ⟨K, phase', hK⟩ := exists_poll hm hq hpc hs he
    refine ⟨K, fun k hk d hd => ?_⟩
    obtain ⟨m, hmn, hlap, rfl⟩ := mem_last hn.symm hd
    obtain ⟨receiver, hr, -, -⟩ := iterate_poll cfg s K
    have hmem := hK.last m hmn
    rw [hr] at hmem
    obtain ⟨j, rfl⟩ := Nat.exists_eq_add_of_le hk
    rw [Nat.add_comm, Function.iterate_add_apply]
    obtain ⟨receiver', hr', -, hd'⟩ := iterate_poll cfg ((State.poll cfg)^[K] s) j
    rw [hr']
    refine hd' _ ?_
    rw [hr]
    exact hmem hlap

/-- `n` slots, and messages of one byte. -/
def Example.slots (n : Nat) : Config where
  tail := n
  maxMsgSize := 1
  hash bytes := UInt64.ofNat (ofLe bytes)

/-- A message is sent, and lands. -/
def Example.sends (byte : UInt8) : List Label :=
  [.getSlot [byte], .send, .land, .land, .land, .landByte 0, .land, .tick 1]

/-- The sender stopped, and the receiver is at the beginning of a poll. -/
def Example.stopped (sent : Nat) (cursors : Cursors) (delivered : List Delivery) (s : State) :
    Bool :=
  s.landed == sent && s.sender.sendBefore == sent && s.receiver.cursors == cursors &&
    s.receiver.delivered == delivered && match s.receiver.pc with
      | .idle => true
      | _ => false

theorem Example.stopped_iff {sent : Nat} {cursors : Cursors} {delivered : List Delivery} :
    Example.stopped sent cursors delivered s = true ↔ s.landed = sent ∧
      s.sender.sendBefore = sent ∧ s.receiver.cursors = cursors ∧
      s.receiver.delivered = delivered ∧ s.receiver.pc = .idle := by
  unfold Example.stopped
  simp only [Bool.and_eq_true, beq_iff_eq, and_assoc]
  refine and_congr_right fun _ => and_congr_right fun _ => and_congr_right fun _ =>
    and_congr_right fun _ => ?_
  cases s.receiver.pc <;> simp

/-- Two messages are sent to one slot before the receiver polls: the second one is there, and it
is not delivered. -/
theorem not_delivered :
    ¬ ∀ cfg : Config, 0 < cfg.tail → ∀ s : State,
      Reachable Init (Step cfg) (fun s l => s.Fits cfg l ∧ s.Intact cfg l) s →
        s.Quiet → s.receiver.pc = .idle →
          ∃ K, ∀ k, K ≤ k → ∀ d ∈ (s.sent cfg).drop (s.sender.sendBefore - cfg.tail),
            d ∈ ((State.poll cfg)^[k] s).receiver.delivered := by
  intro h
  obtain ⟨s, hs, hsee⟩ : ∃ s, Reachable Init (Step (Example.slots 1))
      (fun s l => s.Fits (Example.slots 1) l ∧ s.Intact (Example.slots 1) l) s ∧
        Example.stopped 2 {} [] s = true :=
    exists_reachable (start (fun _ => {}) fun _ => {}) ⟨_, _, rfl⟩
      (Example.sends 7 ++ Example.sends 8) (by decide +kernel)
  obtain ⟨hlanded, hsent, hc, -, hpc⟩ := Example.stopped_iff.mp hsee
  have hq : s.Quiet := hlanded.trans hsent.symm
  obtain ⟨hm, b, phase, hi⟩ := inv_of_reachable (by decide) hs
  have hbest := hi.cursors.best
  rw [hc] at hbest
  have hb : b + 1 < s.incarnations := by
    rw [(hm.quiet hq).1, hlanded]
    have hfew := Nat.lt_of_le_of_lt hi.best (Nat.lt_of_le_of_lt (s.incarnations_le_hashes.trans
      (hm.hashes_le_nextSend.trans (hm.sender.sendBefore.trans hm.sender.nextSlot))) hm.few)
    have h0 : b = 0 := msgId_inj hfew (by decide)
      (congrArg MsgId.incarnation (hbest.symm.trans (msgId_zero _).symm))
      (congrArg MsgId.index (hbest.symm.trans (msgId_zero _).symm))
    omega
  obtain ⟨K, hK⟩ := h (Example.slots 1) (by decide) s hs hq hpc
  obtain ⟨d, hd, hnot⟩ := not_delivered_last hm hq hpc hi hb rfl K
  exact hnot (hK K (Nat.le_refl _) d hd)

/-- Two slots: the receiver delivers the first message, then three are sent, of which it delivers
the last two. -/
theorem delivered_two : ∃ s : State, s.receiver.delivered = [⟨⟨1, 0⟩, [7]⟩] ∧
    s.sent (Example.slots 2) =
      [⟨⟨1, 0⟩, [7]⟩, ⟨⟨1, 1⟩, [8]⟩, ⟨⟨2, 0⟩, [9]⟩, ⟨⟨2, 1⟩, [7]⟩] ∧
    s.receiver.delivered.Sublist (s.sent (Example.slots 2)) ∧
    ∃ K, ∀ k, K ≤ k → ∀ d ∈ (s.sent (Example.slots 2)).drop (s.sender.sendBefore - 2),
      d ∈ ((State.poll (Example.slots 2))^[k] s).receiver.delivered := by
  obtain ⟨s, hs, hsee⟩ : ∃ s, Reachable Init (Step (Example.slots 2))
      (fun s l => s.Fits (Example.slots 2) l ∧ s.Intact (Example.slots 2) l) s ∧
        (Example.stopped 4 ⟨none, ⟨1, 1⟩, ⟨1, 1⟩⟩ [⟨⟨1, 0⟩, [7]⟩] s &&
          s.sent (Example.slots 2) ==
            [⟨⟨1, 0⟩, [7]⟩, ⟨⟨1, 1⟩, [8]⟩, ⟨⟨2, 0⟩, [9]⟩, ⟨⟨2, 1⟩, [7]⟩]) = true :=
    exists_reachable (start (fun _ => {}) fun _ => {}) ⟨_, _, rfl⟩
      (Example.sends 7 ++ [.receive, .receive, .receive, .receive, .copy 0, .receive] ++
        Example.sends 8 ++ Example.sends 9 ++ Example.sends 7) (by decide +kernel)
  rw [Bool.and_eq_true] at hsee
  obtain ⟨hlanded, hsent, -, hd, hpc⟩ := Example.stopped_iff.mp hsee.1
  obtain ⟨hsub, hiff⟩ := delivered_iff (Example.slots 2) (by decide) hs
  exact ⟨s, hd, beq_iff_eq.mp hsee.2, hsub,
    (hiff (hlanded.trans hsent.symm) hpc).mpr (.inl (Nat.le_refl 2))⟩

end State

end Ubft.TailP2p

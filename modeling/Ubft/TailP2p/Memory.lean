import Ubft.Support.Ring
import Ubft.TailP2p.Link

/-!
# TailP2p — what is in memory

The messages given to the sender are numbered `0, 1, …`.  Those whose write did not complete are in
its buffers (`Sender.Keeps`), and each field of a slot of the receiver is that of the last message
of which it landed (`Memory`).
-/

namespace Ubft.TailP2p

open Ubft.Ring (Holds)

/-- Reading a message byte by byte. -/
theorem map_getD (l : Bytes) : (List.range l.length).map (fun k => l.getD k 0) = l := by
  refine List.ext_getElem (by rw [List.length_map, List.length_range]) fun k hk hk' => ?_
  rw [List.getElem_map, List.getElem_range, List.getD_eq_getElem?_getD,
    List.getElem?_eq_getElem hk', Option.getD_some]

/-! ### The sender -/

namespace Sender

variable {cfg : Config} {message : Nat → Bytes} {landed : Nat} {s s' : Sender}

/-- A buffer that holds the `m`-th message. -/
structure Written (cfg : Config) (message : Nat → Bytes) (m : Nat) (buffer : Slot) : Prop where
  incarnation : buffer.incarnation = (State.msgId cfg m).incarnation
  size : buffer.size = (message m).length
  data : buffer.data = fun k => (message m).getD k 0

theorem Written.content {m : Nat} {buffer : Slot} (h : Written cfg message m buffer) :
    buffer.content = message m := by
  rw [Slot.content, h.size, h.data, map_getD]

/-- The sender, when `landed` of its writes landed. -/
structure Keeps (cfg : Config) (message : Nat → Bytes) (landed : Nat) (s : Sender) : Prop where
  nextAlloc : s.nextAlloc = s.nextSlot
  outstanding : s.nextFree + s.outstandingWrites = s.nextSend
  sendBefore : s.nextSend ≤ s.sendBefore
  nextSlot : s.sendBefore ≤ s.nextSlot
  room : s.nextSlot ≤ s.nextFree + cfg.tail
  nextFree : s.nextFree ≤ landed
  posted : landed ≤ s.nextSend
  toSend : s.toSend = (List.range' s.nextSend (s.nextSlot - s.nextSend)).map (· % cfg.tail)
  posts : s.posts = (List.range' landed (s.nextSend - landed)).map
    fun m => ⟨m % cfg.tail, m % cfg.tail, (16 + (message m).length) % 2 ^ 32⟩
  written : Holds cfg.tail (s.nextFree + cfg.tail) s.nextSlot s.buffers (Written cfg message)
  hashed : Holds cfg.tail (s.nextFree + cfg.tail) s.nextSend s.buffers
    fun m buffer => buffer.hash = cfg.hash (message m)

/-- The messages that were pushed and those that are to be. -/
theorem Keeps.pushToQp {l : List Nat} (h : Keeps cfg message landed { s with toSend := l }) :
    Keeps cfg message landed (s.pushToQp cfg l) := by
  induction l generalizing s with
  | nil => exact h
  | cons slot rest ih =>
      unfold Sender.pushToQp
      split
      · next hlt =>
          have hslot : s.nextSend < s.nextSlot := Nat.lt_of_lt_of_le hlt.1 h.nextSlot
          have hnf : s.nextFree ≤ s.nextSend := h.nextFree.trans h.posted
          have hts := h.toSend
          change slot :: rest = (List.range' s.nextSend (s.nextSlot - s.nextSend)).map _ at hts
          rw [show s.nextSlot - s.nextSend = s.nextSlot - (s.nextSend + 1) + 1 by omega,
            List.range'_succ, List.map_cons, List.cons.injEq] at hts
          obtain ⟨rfl, hrest⟩ := hts
          have hw := h.written s.nextSend hslot (Nat.add_le_add_right hnf _)
          refine ih ⟨h.nextAlloc, ?_, hlt.1, h.nextSlot, h.room, h.nextFree,
            Nat.le_succ_of_le h.posted, hrest, ?_, ?_, ?_⟩
          · exact congrArg (· + 1) h.outstanding
          · have hsize : (s.buffers (s.nextSend % cfg.tail)).size = (message s.nextSend).length :=
              hw.size
            have hle : landed ≤ s.nextSend := h.posted
            change s.posts ++ [_] = (List.range' landed (s.nextSend + 1 - landed)).map _
            rw [Nat.succ_sub hle, List.range'_concat, List.map_append, hsize,
              Nat.one_mul, Nat.add_sub_cancel' hle]
            exact congrArg (· ++ _) h.posts
          · exact h.written.set fun m hm => ⟨hm.incarnation, hm.size, hm.data⟩
          · refine Holds.write h.hashed ?_ ?_
            · have := h.room
              change s.nextSlot ≤ s.nextFree + cfg.tail at this
              exact Nat.lt_of_lt_of_le hslot this
            · change cfg.hash (Slot.content _) = _
              rw [hw.content]
      · exact h

theorem Keeps.send (h : Keeps cfg message landed s) : Keeps cfg message landed (s.send cfg) :=
  Keeps.pushToQp ⟨h.nextAlloc, h.outstanding, h.sendBefore.trans h.nextSlot, Nat.le_refl _,
    h.room, h.nextFree, h.posted, h.toSend, h.posts, h.written, h.hashed⟩

/-- A write that landed completes. -/
theorem Keeps.release (h : Keeps cfg message landed s) (hlt : s.nextFree < landed) :
    Keeps cfg message landed { s with
      nextFree := s.nextFree + 1
      outstandingWrites := s.outstandingWrites - 1 } := by
  have ho := h.outstanding
  have hl := h.posted
  have hr := h.room
  refine ⟨h.nextAlloc, ?_, h.sendBefore, h.nextSlot, ?_, hlt, h.posted, h.toSend, h.posts,
    h.written.mono (Nat.add_le_add_right (Nat.le_succ _) _) (Nat.le_refl _),
    h.hashed.mono (Nat.add_le_add_right (Nat.le_succ _) _) (Nat.le_refl _)⟩
  · change s.nextFree + 1 + (s.outstandingWrites - 1) = s.nextSend
    omega
  · change s.nextSlot ≤ s.nextFree + 1 + cfg.tail
    omega

/-- By induction on the completions. -/
theorem Keeps.complete {n : Nat} (h : Keeps cfg message landed s) (hn : s.nextFree + n ≤ landed)
    (hs : s.complete n = .ok s') : Keeps cfg message landed s' := by
  induction n generalizing s with
  | zero =>
      cases hs
      exact h
  | succ n ih =>
      unfold Sender.complete at hs
      split at hs
      · cases hs
      · refine ih (h.release (Nat.lt_of_lt_of_le (Nat.lt_add_of_pos_right n.succ_pos) hn)) ?_ hs
        change s.nextFree + 1 + n ≤ landed
        omega

theorem Keeps.tick {n : Nat} (h : Keeps cfg message landed s) (hn : s.nextFree + n ≤ landed)
    (hs : s.tick cfg n = .ok s') : Keeps cfg message landed s' := by
  obtain ⟨s₁, h₁, h₂⟩ := bind_eq_ok.mp hs
  cases h₂
  exact Keeps.pushToQp (h.complete hn h₁)

/-- **What `getSlot` does**: the next slot is filled. -/
theorem getSlot_cases {m : Bytes} (h : s.getSlot cfg m = .ok (some s')) :
    s.nextAlloc ≠ s.nextFree + cfg.tail ∧ s' = { s with
      buffers := Function.update s.buffers (s.nextAlloc % cfg.tail)
        { s.buffers (s.nextAlloc % cfg.tail) with
          incarnation := UInt32.ofNat (s.nextSlot / cfg.tail + 1)
          size := m.length
          data := fun k => m.getD k 0 }
      nextAlloc := s.nextAlloc + 1
      nextSlot := s.nextSlot + 1
      toSend := s.toSend ++ [s.nextAlloc % cfg.tail] } := by
  unfold Sender.getSlot at h
  split at h
  · cases h
  · unfold acquire at h
    by_cases hf : s.nextAlloc = s.nextFree + cfg.tail
    · rw [if_pos hf] at h
      cases h
    · rw [if_neg hf] at h
      cases h
      exact ⟨hf, rfl⟩

/-- The message is the next one. -/
theorem Keeps.getSlot {m : Bytes} {message' : Nat → Bytes} (h : Keeps cfg message landed s)
    (hs : s.getSlot cfg m = .ok (some s')) (hold : ∀ i < s.nextSlot, message' i = message i)
    (hnew : message' s.nextSlot = m) : Keeps cfg message' landed s' := by
  obtain ⟨hf, rfl⟩ := getSlot_cases hs
  have hroom : s.nextSlot < s.nextFree + cfg.tail :=
    Nat.lt_of_le_of_ne h.room (h.nextAlloc ▸ hf)
  have hle : s.nextSend ≤ s.nextSlot := h.sendBefore.trans h.nextSlot
  have hposts : ∀ i ∈ List.range' landed (s.nextSend - landed), message' i = message i :=
    fun i hi => hold i (by have := List.mem_range'_1.mp hi; have := h.posted; omega)
  rw [h.nextAlloc]
  refine ⟨rfl, h.outstanding, h.sendBefore, Nat.le_succ_of_le h.nextSlot, hroom, h.nextFree,
    h.posted, ?_, ?_, ?_, ?_⟩
  · change s.toSend ++ _ = (List.range' s.nextSend (s.nextSlot + 1 - s.nextSend)).map _
    rw [h.toSend, Nat.succ_sub hle, List.range'_concat, List.map_append, Nat.one_mul,
      Nat.add_sub_cancel' hle]
    rfl
  · refine h.posts.trans (List.map_congr_left fun i hi => ?_)
    rw [hposts i hi]
  · refine (h.written.imp fun i hi x hx => ?_).write hroom ⟨rfl, ?_, ?_⟩
    · exact ⟨hx.incarnation, hold i hi ▸ hx.size, hold i hi ▸ hx.data⟩
    · rw [hnew]
    · rw [hnew]
  · refine (h.hashed.imp fun i hi x hx => ?_).update hle hroom _
    rw [hold i (Nat.lt_of_lt_of_le hi hle)]
    exact hx

end Sender

/-! ### The slots of the receiver -/

namespace State

variable {cfg : Config} {s s' : State}

/-- The messages whose hash landed. -/
def hashes (s : State) : Nat := s.landed + match s.stage with
  | .none => 0
  | .hash | .incarnation | .size => 1

/-- The messages whose incarnation landed. -/
def incarnations (s : State) : Nat := s.landed + match s.stage with
  | .none | .hash => 0
  | .incarnation | .size => 1

/-- The messages whose size landed. -/
def sizes (s : State) : Nat := s.landed + match s.stage with
  | .none | .hash | .incarnation => 0
  | .size => 1

theorem landed_le_sizes (s : State) : s.landed ≤ s.sizes := Nat.le_add_right _ _

theorem sizes_le_incarnations (s : State) : s.sizes ≤ s.incarnations := by
  unfold sizes incarnations
  cases s.stage <;> simp

theorem incarnations_le_hashes (s : State) : s.incarnations ≤ s.hashes := by
  unfold incarnations hashes
  cases s.stage <;> simp

theorem hashes_le (s : State) : s.hashes ≤ s.landed + 1 := by
  unfold hashes
  cases s.stage <;> simp

/-- A message is sent, and lands, after those before it. -/
structure Memory (cfg : Config) (s : State) : Prop where
  sender : s.sender.Keeps cfg s.message s.landed
  length : s.written.length = s.sender.nextSlot
  few : s.sender.nextSlot < cfg.tail * (2 ^ 32 - 1)
  short : ∀ m, 16 + (s.message m).length < 2 ^ 32
  landing : s.stage ≠ .none → s.landed < s.sender.nextSend
  fresh : ∀ i < cfg.tail, s.incarnations ≤ i → (s.slots i).incarnation = 0
  incarnation : Holds cfg.tail s.incarnations s.incarnations s.slots
    fun m slot => slot.incarnation = (msgId cfg m).incarnation
  hash : Holds cfg.tail s.hashes s.hashes s.slots
    fun m slot => slot.hash = cfg.hash (s.message m)
  size : Holds cfg.tail s.sizes s.sizes s.slots fun m slot => slot.size = (s.message m).length
  data : Holds cfg.tail s.sizes s.landed s.slots
    fun m slot => ∀ k < (s.message m).length, slot.data k = (s.message m).getD k 0

theorem Memory.tail_pos (h : Memory cfg s) : 0 < cfg.tail :=
  Nat.pos_of_ne_zero fun h0 => by
    have := h.few
    rw [h0, Nat.zero_mul] at this
    exact Nat.not_lt_zero _ this

theorem Memory.hashes_le_nextSend (h : Memory cfg s) : s.hashes ≤ s.sender.nextSend := by
  have hl := h.landing
  unfold hashes
  cases hs : s.stage with
  | none => exact h.sender.posted
  | hash | incarnation | size => exact hl (by rw [hs]; nofun)

theorem memory_start (ht : 0 < cfg.tail) (buffers slots : Nat → Slot) :
    Memory cfg (start buffers slots) where
  sender :=
    { nextAlloc := rfl
      outstanding := rfl
      sendBefore := Nat.le_refl _
      nextSlot := Nat.le_refl _
      room := Nat.zero_le _
      nextFree := Nat.le_refl _
      posted := Nat.le_refl _
      toSend := rfl
      posts := rfl
      written := .zero
      hashed := .zero }
  length := rfl
  few := Nat.mul_pos ht (by decide)
  short m := show 16 + ([].getD m []).length < 2 ^ 32 by rw [List.getD_nil]; decide
  landing h := absurd rfl h
  fresh _ _ _ := rfl
  incarnation := .zero
  hash := .zero
  size := .zero
  data := .zero

/-- The sender does something else than landing a write. -/
theorem Memory.setSender {sender : Sender} (h : Memory cfg s)
    (hk : sender.Keeps cfg s.message s.landed) (hs : sender.nextSlot = s.sender.nextSlot)
    (hn : s.sender.nextSend ≤ sender.nextSend) : Memory cfg { s with sender } :=
  ⟨hk, h.length.trans hs.symm, hs ▸ h.few, h.short,
    fun hne => Nat.lt_of_lt_of_le (h.landing hne) hn, h.fresh, h.incarnation, h.hash, h.size, h.data⟩

theorem nextSend_le_pushToQp (cfg : Config) (l : List Nat) (s : Sender) :
    s.nextSend ≤ (s.pushToQp cfg l).nextSend ∧ (s.pushToQp cfg l).nextSlot = s.nextSlot := by
  induction l generalizing s with
  | nil => exact ⟨Nat.le_refl _, rfl⟩
  | cons slot rest ih =>
      unfold Sender.pushToQp
      split
      · refine ⟨?_, (ih _).2⟩
        refine Nat.le_trans ?_ (ih _).1
        exact Nat.le_succ _
      · exact ⟨Nat.le_refl _, rfl⟩

theorem Memory.send (h : Memory cfg s) : Memory cfg { s with sender := s.sender.send cfg } :=
  have hq := nextSend_le_pushToQp cfg s.sender.toSend
    { s.sender with sendBefore := s.sender.nextSlot }
  h.setSender h.sender.send hq.2 hq.1

theorem complete_cases {n : Nat} {sender sender' : Sender} (h : sender.complete n = .ok sender') :
    sender'.nextSend = sender.nextSend ∧ sender'.nextSlot = sender.nextSlot := by
  induction n generalizing sender with
  | zero =>
      cases h
      exact ⟨rfl, rfl⟩
  | succ n ih =>
      unfold Sender.complete at h
      split at h
      · cases h
      · obtain ⟨h₁, h₂⟩ := ih h
        exact ⟨h₁, h₂⟩

theorem Memory.tick {n : Nat} {sender : Sender} (h : Memory cfg s)
    (hs : s.sender.tick cfg (min n s.completions) = .ok sender) :
    Memory cfg { s with sender } := by
  have hk := h.sender
  have hn : s.sender.nextFree + min n s.completions ≤ s.landed := by
    have := hk.outstanding
    have := hk.nextFree
    unfold completions
    omega
  obtain ⟨sender', h₁, h₂⟩ := bind_eq_ok.mp hs
  obtain ⟨he, he'⟩ := complete_cases h₁
  refine h.setSender (hk.tick hn hs) ?_ ?_
  · cases h₂
    exact (nextSend_le_pushToQp cfg ..).2.trans he'
  · cases h₂
    exact he ▸ (nextSend_le_pushToQp cfg ..).1

/-- A message more, when there are few enough. -/
theorem Memory.getSlot {m : Bytes} {sender : Sender} (h : Memory cfg s)
    (hf : s.sender.nextSlot + 1 < cfg.tail * (2 ^ 32 - 1)) (hm : 16 + m.length < 2 ^ 32)
    (hs : s.sender.getSlot cfg m = .ok (some sender)) :
    Memory cfg { s with
      sender
      written := s.written ++ [m] } := by
  have hold : ∀ i < s.sender.nextSlot, (s.written ++ [m]).getD i [] = s.message i := by
    intro i hi
    rw [← h.length] at hi
    rw [message, List.getD_eq_getElem?_getD, List.getD_eq_getElem?_getD,
      List.getElem?_append_left hi]
  have hnew : (s.written ++ [m]).getD s.sender.nextSlot [] = m := by
    rw [← h.length, List.getD_eq_getElem?_getD, List.getElem?_concat_length, Option.getD_some]
  have hk : sender.Keeps cfg (fun i => (s.written ++ [m]).getD i []) s.landed :=
    h.sender.getSlot hs hold hnew
  obtain ⟨-, rfl⟩ := Sender.getSlot_cases hs
  have hle : s.hashes ≤ s.sender.nextSlot :=
    h.hashes_le_nextSend.trans (h.sender.sendBefore.trans h.sender.nextSlot)
  have hle' : s.sizes ≤ s.sender.nextSlot :=
    (s.sizes_le_incarnations.trans s.incarnations_le_hashes).trans hle
  refine ⟨hk, ?_, hf, fun i => ?_, h.landing, h.fresh, h.incarnation, h.hash.imp fun i hi x hx => ?_,
    h.size.imp fun i hi x hx => ?_, h.data.imp fun i hi x hx => ?_⟩
  · change (s.written ++ [m]).length = s.sender.nextSlot + 1
    rw [List.length_append, List.length_singleton, h.length]
  · change 16 + ((s.written ++ [m]).getD i []).length < 2 ^ 32
    rcases Nat.lt_trichotomy i s.sender.nextSlot with hi | hi | hi
    · rw [hold i hi]
      exact h.short i
    · rw [hi, hnew]
      exact hm
    · rw [List.getD_eq_default _ _ (by rw [List.length_append, h.length]; exact hi)]
      decide
  · exact hx.trans (congrArg cfg.hash (hold i (Nat.lt_of_lt_of_le hi hle)).symm)
  · exact hx.trans (congrArg List.length (hold i (Nat.lt_of_lt_of_le hi hle')).symm)
  · have he := hold i (Nat.lt_of_lt_of_le hi (s.landed_le_sizes.trans hle'))
    change ∀ k < ((s.written ++ [m]).getD i []).length,
      x.data k = ((s.written ++ [m]).getD i []).getD k 0
    rw [he]
    exact hx

/-- The write that lands. -/
theorem Memory.posts (h : Memory cfg s) {p : Post} {posts : List Post}
    (hp : s.sender.posts = p :: posts) : s.landed < s.sender.nextSend ∧
      p = ⟨s.landed % cfg.tail, s.landed % cfg.tail, 16 + (s.message s.landed).length⟩ ∧
      posts = (List.range' (s.landed + 1) (s.sender.nextSend - (s.landed + 1))).map
        fun m => ⟨m % cfg.tail, m % cfg.tail, (16 + (s.message m).length) % 2 ^ 32⟩ := by
  have hl := h.sender.posts
  rw [hp] at hl
  cases hd : s.sender.nextSend - s.landed with
  | zero => rw [hd] at hl; cases hl
  | succ d =>
      rw [hd, List.range'_succ, List.map_cons, List.cons.injEq] at hl
      refine ⟨by omega, ?_, ?_⟩
      · rw [hl.1, Nat.mod_eq_of_lt (h.short s.landed)]
      rw [hl.2, show s.sender.nextSend - (s.landed + 1) = d by omega]

/-- A field that a write covers. -/
theorem overwrite_of_le {width n : Nat} (h : width ≤ n) (old new : Nat) :
    overwrite width n old new = new := if_pos h

/-- **What lands**: a field at a time, in order. -/
theorem Memory.land (h : Memory cfg s) : Memory cfg s.land := by
  unfold State.land
  split
  · exact h
  · next p posts hp =>
      obtain ⟨hlt, rfl, hposts⟩ := h.posts hp
      have hslot := Nat.lt_of_lt_of_le hlt (h.sender.sendBefore.trans h.sender.nextSlot)
      have hfree := Nat.add_le_add_right h.sender.nextFree cfg.tail
      have hw := h.sender.written s.landed hslot hfree
      have hh := h.sender.hashed s.landed hlt hfree
      -- no slot without a message has an incarnation
      have hset : ∀ {x : Slot}, x.incarnation = (s.slots (s.landed % cfg.tail)).incarnation →
          ∀ i < cfg.tail, s.incarnations ≤ i →
            (Function.update s.slots (s.landed % cfg.tail) x i).incarnation = 0 := by
        intro x hx i hi hle
        by_cases hri : i = s.landed % cfg.tail
        · rw [hri, Function.update_self, hx, ← hri]
          exact h.fresh i hi hle
        · rw [Function.update_of_ne hri]
          exact h.fresh i hi hle
      have hfresh := h.fresh
      have hinc := h.incarnation
      have hhash := h.hash
      have hsize := h.size
      have hdata := h.data
      unfold incarnations at hfresh hinc hset
      unfold hashes at hhash
      unfold sizes at hsize hdata
      split
      · next hst =>
          rw [hst] at hset hinc hhash hsize hdata
          dsimp only
          rw [overwrite_of_le (by omega), UInt64.ofNat_toNat]
          refine ⟨h.sender, h.length, h.few, h.short, fun _ => hlt, hset rfl,
            hinc.set fun _ hx => hx, ?_, hsize.set fun _ hx => hx, hdata.set fun _ hx => hx⟩
          exact (hhash.mono (Nat.le_succ _) (Nat.le_refl _)).write (Nat.lt_succ_self _) hh
      · next hst =>
          rw [hst] at hset hinc hhash hsize hdata hfresh
          dsimp only
          rw [overwrite_of_le (by omega), UInt32.ofNat_toNat]
          refine ⟨h.sender, h.length, h.few, h.short, fun _ => hlt, ?_, ?_, hhash.set fun _ hx => hx,
            hsize.set fun _ hx => hx, hdata.set fun _ hx => hx⟩
          · intro i hi hle
            have hne : i ≠ s.landed % cfg.tail := fun he =>
              Nat.not_succ_le_self _ (hle.trans (he.trans_le (Nat.mod_le _ _)))
            change (Function.update s.slots _ _ i).incarnation = 0
            rw [Function.update_of_ne hne]
            exact hfresh i hi (Nat.le_of_succ_le hle)
          · exact (hinc.mono (Nat.le_succ _) (Nat.le_refl _)).write (Nat.lt_succ_self _)
              hw.incarnation
      · next hst =>
          rw [hst] at hset hinc hhash hsize hdata
          dsimp only
          rw [overwrite_of_le (by omega)]
          refine ⟨h.sender, h.length, h.few, h.short, fun _ => hlt, hset rfl,
            hinc.set fun _ hx => hx, hhash.set fun _ hx => hx, ?_, ?_⟩
          · exact (hsize.mono (Nat.le_succ _) (Nat.le_refl _)).write (Nat.lt_succ_self _) hw.size
          · exact (hdata.mono (Nat.le_succ _) (Nat.le_refl _)).set fun _ hx => hx
      · next hst =>
          rw [hst] at hset hinc hhash hsize hdata hfresh
          dsimp only
          split
          · next hall =>
              have hk := h.sender
              refine ⟨⟨hk.nextAlloc, hk.outstanding, hk.sendBefore, hk.nextSlot, hk.room,
                Nat.le_succ_of_le hk.nextFree, hlt, hk.toSend, hposts, hk.written, hk.hashed⟩,
                h.length, h.few, h.short, fun hne => absurd rfl hne, hfresh, hinc, hhash, hsize, ?_⟩
              -- every byte landed, so that the whole message has
              refine hdata.succ fun k hk => ?_
              rw [hall k (by omega), hw.data]
          · exact h

/-- The bytes land in any order. -/
theorem Memory.landByte (h : Memory cfg s) (k : Nat) : Memory cfg (s.landByte k) := by
  unfold State.landByte
  split
  · exact h
  · next p posts hp =>
      obtain ⟨-, rfl, -⟩ := h.posts hp
      split
      · next hst =>
          have hlt : s.landed < s.sizes := by
            unfold sizes
            rw [hst.1]
            exact Nat.lt_succ_self _
          refine ⟨h.sender, h.length, h.few, h.short, h.landing, fun i hi hle => ?_,
            h.incarnation.set fun _ hx => hx, h.hash.set fun _ hx => hx,
            h.size.set fun _ hx => hx, h.data.update (Nat.le_refl _) hlt _⟩
          change (Function.update s.slots _ _ i).incarnation = 0
          by_cases hri : i = s.landed % cfg.tail
          · rw [hri, Function.update_self]
            exact h.fresh _ (hri ▸ hi) (hri ▸ hle)
          · rw [Function.update_of_ne hri]
            exact h.fresh i hi hle
      · exact h

end State

end Ubft.TailP2p

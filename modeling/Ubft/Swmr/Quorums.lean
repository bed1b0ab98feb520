import Ubft.Support.Counting
import Ubft.Swmr.Polling
import Ubft.Swmr.Replicated

/-!
# Swmr — quorums of the replicated register

What a host has of a register is a WRITE of it, as long as the buffer of the register is not
filled between the WRITE and the copy (`Cell.Kept`).  A READ that follows a WRITE meets a host
that completed it when two quorums of `(n + 1) / 2` hosts always meet, which they do when `n` is
odd (`polled_regular`).
-/

namespace Ubft.Swmr.Replicated

theorem getElem?_of_prefix {α : Type} {l l' : List α} (h : l <+: l') {k : Nat} {a : α}
    (hk : l[k]? = some a) : l'[k]? = some a := by
  obtain ⟨t, rfl⟩ := h
  rw [List.getElem?_append_left (List.getElem?_eq_some_iff.mp hk).1, hk]

/-! ### What a host has of a register -/

namespace Cell

variable {r : Register} {ws ws' : List Subslot} {c c' : Cell} {a : Bool} {buffer : Bytes}

/-- The WRITEs of the host are WRITEs of the register, in order. -/
structure History (ws : List Subslot) (c : Cell) : Prop where
  header : ∃ last, c.written.getLast? = some last ∧
    c.register.incarnation = last.incarnation + 2
  sorted : c.written.Pairwise fun x y => x.incarnation < y.incarnation
  bound : ∀ w ∈ c.written, w.incarnation + 2 < 2 ^ 32
  subset : ∀ w ∈ c.written, w ∈ ws
  pos : 1 ≤ c.completed
  completed : c.written.length = c.completed + if c.register.scheduled then 1 else 0

/-- A WRITE that the host was given and did not begin is the last one of the register, and waits
for another one. -/
structure Kept (r : Register) (ws : List Subslot) (c : Cell) : Prop extends History ws c where
  waiting : ∀ inc, c.toWrite = some inc → c.register.scheduled = true ∧
    inc = r.incarnation ∧ c.register.incarnation < inc.toNat + 2
  latest : c.toWrite = none → c.register.incarnation = r.incarnation.toNat + 2

/-- The same, where the WRITE may also begin: the buffer is its value. -/
structure Ready (r : Register) (ws : List Subslot) (c : Cell) : Prop extends History ws c where
  waiting : ∀ inc, c.toWrite = some inc →
    (c.register.scheduled = true ∨ ⟨inc.toNat, r.buffer⟩ ∈ ws) ∧ inc = r.incarnation ∧
      c.register.incarnation < inc.toNat + 2
  latest : c.toWrite = none → c.register.incarnation = r.incarnation.toNat + 2

/-- A cell that is pushed to nothing. -/
theorem Kept.ready (h : Kept r ws c) : Ready r ws c :=
  ⟨h.toHistory, fun inc hi => ⟨.inl (h.waiting inc hi).1, (h.waiting inc hi).2⟩, h.latest⟩

theorem History.mono (h : History ws c) (hw : ∀ w ∈ ws, w ∈ ws') : History ws' c :=
  ⟨h.header, h.sorted, h.bound, fun w hm => hw w (h.subset w hm), h.pos, h.completed⟩

/-- What is known of the last WRITE. -/
theorem History.le_last (h : History ws c) {w : Subslot} (hw : w ∈ c.written) :
    w.incarnation + 2 ≤ c.register.incarnation := by
  obtain ⟨last, hl, he⟩ := h.header
  obtain ⟨ws₀, hws⟩ := List.getLast?_eq_some_iff.mp hl
  rw [he]
  have hs := h.sorted
  rw [hws] at hw hs
  rcases List.mem_append.mp hw with hw | hw
  · have := (List.pairwise_append.mp hs).2.2 w hw last (List.mem_singleton_self _)
    omega
  · rw [List.mem_singleton.mp hw]

/-- The initial WRITEs took two incarnations. -/
theorem History.two_le (h : History ws c) : 2 ≤ c.register.incarnation := by
  obtain ⟨last, -, he⟩ := h.header
  omega

/-- `c'` comes after `c`. -/
structure Later (c c' : Cell) : Prop where
  written : c.written <+: c'.written
  completed : c.completed ≤ c'.completed

theorem Later.refl (c : Cell) : Later c c := ⟨List.prefix_rfl, Nat.le_refl _⟩

theorem Later.trans {c'' : Cell} (h : Later c c') (h' : Later c' c'') : Later c c'' :=
  ⟨h.written.trans h'.written, h.completed.trans h'.completed⟩

/-- What `pushToWriter` does. -/
theorem push_cases (h : Ready r ws c) (ht : c.throws a = false) :
    (c.push a buffer = c ∧ (c.toWrite = none ∨ c.register.scheduled = true)) ∨
      ∃ inc, c.toWrite = some inc ∧ c.register.scheduled = false ∧ inc.toNat + 2 < 2 ^ 32 ∧
        c.register.incarnation < inc.toNat + 2 ∧
        c.push a buffer = {
          toWrite := none
          register := ⟨inc.toNat + 2, buffer, true, (c.register.remoteSubslot + 1) % 2⟩
          written := c.written ++ [⟨inc.toNat, buffer⟩]
          completed := c.completed } := by
  unfold push
  unfold throws at ht
  cases hw : c.toWrite with
  | none => exact .inl ⟨rfl, .inl rfl⟩
  | some inc =>
      rw [hw] at ht
      simp only at ht ⊢
      by_cases hs : c.register.scheduled = true
      · rw [if_pos hs]
        exact .inl ⟨rfl, .inr hs⟩
      · rw [if_neg hs]
        have hs' := Bool.eq_false_iff.mpr hs
        rw [hs', Bool.not_false, Bool.true_and] at ht
        -- an exception would have ended the run
        cases hr : c.register.incarnate a (some inc) with
        | error e => rw [hr] at ht; cases ht
        | ok r' =>
            simp only [Swmr.Register.incarnate] at hr
            split at hr
            · obtain ⟨h₁, h₂, rfl⟩ :=
                Swmr.Register.setIncarnation_cases (Nat.le_of_succ_le h.two_le) hr
              exact .inr ⟨inc, rfl, hs', h₁, h₂, rfl⟩
            · cases hr

/-- What is to be written is pushed if the last WRITE completed. -/
theorem Ready.push (h : Ready r ws c) (ht : c.throws a = false) :
    Kept r ws (c.push a r.buffer) := by
  rcases push_cases h ht with ⟨he, hs⟩ | ⟨inc, hw, hs, hb, hlt, he⟩
  · rw [he]
    refine ⟨h.toHistory, fun inc hi => ?_, h.latest⟩
    rcases hs with hs | hs
    · rw [hi] at hs
      cases hs
    · exact ⟨hs, (h.waiting inc hi).2⟩
  · rw [he]
    obtain ⟨hmem, rfl, -⟩ := h.waiting inc hw
    have hin : ⟨r.incarnation.toNat, r.buffer⟩ ∈ ws := by
      rcases hmem with hx | hx
      · rw [hs] at hx
        cases hx
      · exact hx
    refine ⟨⟨⟨⟨r.incarnation.toNat, r.buffer⟩, List.getLast?_concat .., rfl⟩, ?_, fun w hm => ?_,
      fun w hm => ?_, h.pos, ?_⟩, nofun, fun _ => rfl⟩
    · -- the incarnation is above the last one of the cell
      refine List.pairwise_append.mpr ⟨h.sorted, List.pairwise_singleton _ _, fun x hx y hy => ?_⟩
      rw [List.mem_singleton.mp hy]
      have := h.le_last hx
      change x.incarnation < r.incarnation.toNat
      omega
    · rcases List.mem_append.mp hm with hm | hm
      · exact h.bound w hm
      · rw [List.mem_singleton.mp hm]
        exact hb
    · rcases List.mem_append.mp hm with hm | hm
      · exact h.subset w hm
      · rw [List.mem_singleton.mp hm]
        exact hin
    · have hc := h.completed
      rw [hs, if_neg Bool.false_ne_true, Nat.add_zero] at hc
      change (c.written ++ [_]).length = c.completed + 1
      rw [List.length_append, List.length_singleton, hc]

theorem later_push (h : Ready r ws c) (ht : c.throws a = false) : Later c (c.push a buffer) := by
  rcases push_cases h ht with ⟨he, -⟩ | ⟨inc, -, -, -, -, he⟩
  · rw [he]
    exact .refl c
  · rw [he]
    exact ⟨List.prefix_append .., Nat.le_refl _⟩

/-- A completion takes back no WRITE. -/
theorem later_complete (c : Cell) : Later c c.complete := by
  unfold complete
  split
  · exact ⟨List.prefix_rfl, Nat.le_succ _⟩
  · exact .refl c

/-- A WRITE completes, the buffer being the value of the last WRITE of the register. -/
theorem Kept.complete (h : Kept r ws c) (hr : ⟨r.incarnation.toNat, r.buffer⟩ ∈ ws) :
    Ready r ws c.complete := by
  unfold Cell.complete
  split
  · next hs =>
      have hc := h.completed
      rw [if_pos hs] at hc
      refine ⟨⟨h.header, h.sorted, h.bound, h.subset, Nat.le_succ_of_le h.pos, hc⟩,
        fun inc hi => ?_, h.latest⟩
      obtain ⟨-, rfl, hlt⟩ := h.waiting inc hi
      exact ⟨.inr hr, rfl, hlt⟩
  · exact h.ready

/-- The WRITEs of a host only get newer. -/
theorem Later.le (hl : Later c c')
    (h : c'.written.Pairwise fun x y => x.incarnation < y.incarnation) {m n : Nat} {x y : Subslot}
    (hx : c.written[m]? = some x) (hy : c'.written[n]? = some y) (hmn : m ≤ n) :
    x.incarnation ≤ y.incarnation := by
  have hx' := getElem?_of_prefix hl.written hx
  obtain ⟨hm, rfl⟩ := List.getElem?_eq_some_iff.mp hx'
  obtain ⟨hn, rfl⟩ := List.getElem?_eq_some_iff.mp hy
  rcases Nat.lt_or_eq_of_le hmn with hlt | rfl
  · exact Nat.le_of_lt (List.pairwise_iff_getElem.mp h m n hm hn hlt)
  · exact Nat.le_refl _

/-- The incarnation of the last completed WRITE. -/
theorem History.acknowledged (h : History ws c) :
    ∃ w, c.written[c.completed - 1]? = some w ∧ c.acknowledged = w.incarnation := by
  have hp := h.pos
  have hc := h.completed
  have hlt : c.completed - 1 < c.written.length := by omega
  refine ⟨_, List.getElem?_eq_getElem hlt, ?_⟩
  rw [Cell.acknowledged, List.getElem?_eq_getElem hlt]
  rfl

/-- What was acknowledged stays so. -/
theorem Later.acknowledged_le (hl : Later c c') (h : History ws c) (h' : History ws' c') :
    c.acknowledged ≤ c'.acknowledged := by
  obtain ⟨x, hx, hxe⟩ := h.acknowledged
  obtain ⟨y, hy, hye⟩ := h'.acknowledged
  rw [hxe, hye]
  exact hl.le h'.sorted hx hy (Nat.sub_le_sub_right hl.completed 1)

/-- A host that completed has acknowledged the last WRITE. -/
theorem Kept.isCompleted (h : Kept r ws c) (hc : c.isCompleted = true) :
    c.acknowledged = r.incarnation.toNat ∧ r.incarnation.toNat + 2 < 2 ^ 32 := by
  rw [Cell.isCompleted, Bool.and_eq_true, Bool.not_eq_true'] at hc
  obtain ⟨last, hl, he⟩ := h.header
  have hlen := h.completed
  rw [hc.2, if_neg Bool.false_ne_true, Nat.add_zero] at hlen
  have hi := h.latest (Option.isNone_iff_eq_none.mp hc.1)
  have heq : last.incarnation = r.incarnation.toNat := by omega
  refine ⟨?_, ?_⟩
  · rw [Cell.acknowledged, ← hlen, ← List.getLast?_eq_getElem?, hl]
    exact heq
  · rw [← heq]
    exact h.bound last (List.mem_of_getLast? hl)

end Cell

/-! ### The replicated register -/

namespace State

variable {cfg : Config} {s s' : State}

/-- A READ of the register was begun under the handle. -/
def Asks (s : State) (handle : Readers.Handle) (index : Nat) : Prop :=
  ∃ rd, s.readings[handle]? = some rd ∧ rd.index = index

/-- Host `h` answers the READ with a WRITE of the register, not older than the last one it had
completed when the READ began. -/
def Gets (s : State) (h : Nat) (handle : Readers.Handle) (x : Subslot) : Prop :=
  ∃ rd, s.readings[handle]? = some rd ∧ x ∈ (s.cells h rd.index).written ∧
    rd.low h ≤ x.incarnation

/-- A READ returned a WRITE of its register, value and incarnation, not older than one that was
known to be completed before the READ. -/
def Regular (s : State) (x : Readers.Handle × Subslot) : Prop :=
  ∃ rd, s.readings[x.1]? = some rd ∧ x.2 ∈ s.writes rd.index ∧
    ∀ k ∈ rd.before, k ≤ x.2.incarnation

/-- What holds of the register, of its copies at the hosts and of the readings. -/
structure Inv (cfg : Config) (s : State) : Prop where
  /-- Filled, the buffer may differ from the last WRITE. -/
  buffer : ∀ i < cfg.nb, (s.registers i).filled = false →
    ⟨(s.registers i).incarnation.toNat, (s.registers i).buffer⟩ ∈ s.writes i
  idle : ∀ i < cfg.nb, (s.registers i).outstandingWrite = false →
    (s.registers i).incarnation.toNat + 2 < 2 ^ 32
  cells : ∀ h < cfg.n, ∀ i < cfg.nb, (s.cells h i).Kept (s.registers i) (s.writes i)
  reader : s.reader.Inv
  hosts : s.reader.readers.length = cfg.n
  handles : s.reader.nextHandle = s.readings.length
  serves : ∀ (h : Nat) m, s.reader.readers[h]? = some m → m.Serves s.Asks (s.Gets h)
  readings : ∀ rd ∈ s.readings, rd.index < cfg.nb ∧ ∀ k ∈ rd.before,
    cfg.quorum ≤ (List.range cfg.n).countP fun h => k ≤ rd.low h
  confirmed : ∀ i < cfg.nb, ∀ k ∈ s.confirmed i,
    cfg.quorum ≤ (List.range cfg.n).countP fun h => k ≤ (s.cells h i).acknowledged
  results : ∀ x ∈ s.reader.results, s.Regular x

/-- A READ is of a register that is there. -/
theorem Inv.index (hI : Inv cfg s) : ∀ rd ∈ s.readings, rd.index < cfg.nb :=
  fun rd hrd => (hI.readings rd hrd).1

/-- What is known of the READs when the hosts go on, and the readers do not. -/
theorem Asks.mono {handle : Readers.Handle} {index : Nat} (h : s.Asks handle index)
    (hr : s.readings <+: s'.readings) : s'.Asks handle index := by
  obtain ⟨rd, hrd, hi⟩ := h
  exact ⟨rd, getElem?_of_prefix hr hrd, hi⟩

/-- More may have been asked and written. -/
theorem Gets.mono {h : Nat} {handle : Readers.Handle} {x : Subslot} (hg : s.Gets h handle x)
    (hr : s.readings <+: s'.readings)
    (hw : ∀ rd ∈ s.readings, (s.cells h rd.index).written <+: (s'.cells h rd.index).written) :
    s'.Gets h handle x := by
  obtain ⟨rd, hrd, hm, hle⟩ := hg
  exact ⟨rd, getElem?_of_prefix hr hrd, (hw rd (List.mem_of_getElem? hrd)).subset hm, hle⟩

/-- Nothing was written or read. -/
theorem inv_start (cfg : Config) (hn : 1 ≤ cfg.n) : Inv cfg (start cfg) where
  buffer _ _ _ := List.mem_singleton_self _
  idle _ _ _ := by
    change (0 : UInt32).toNat + 2 < 2 ^ 32
    decide
  cells _ _ _ _ :=
    { header := ⟨_, rfl, rfl⟩
      sorted := List.pairwise_singleton _ _
      bound := fun w hw => by
        rw [List.mem_singleton.mp hw]
        change 0 + 2 < 2 ^ 32
        decide
      subset := fun w hw => hw
      pos := Nat.le_refl _
      completed := rfl
      waiting := nofun
      latest := fun _ => rfl }
  reader := Readers.ReplicatedReader.inv_init
    ⟨cfg.pools, List.ne_nil_of_length_pos hn, cfg.nodup, rfl⟩
  hosts := List.length_map ..
  handles := rfl
  serves h m hm := by
    obtain ⟨pool, -, rfl⟩ := List.mem_map.mp (List.mem_of_getElem? hm)
    exact ⟨nofun, nofun, nofun⟩
  readings := nofun
  confirmed := nofun
  results := nofun

/-- What is given to the hosts: the registers and their WRITEs may change too, as long as nothing
is known of them that does not hold any more. -/
theorem Inv.pushToWriter {registers : Nat → Register} {writes : Nat → List Subslot}
    {cells : Nat → Nat → Cell} (hI : Inv cfg s)
    (hbuf : ∀ i < cfg.nb, (registers i).filled = false →
      ⟨(registers i).incarnation.toNat, (registers i).buffer⟩ ∈ writes i)
    (hidle : ∀ i < cfg.nb, (registers i).outstandingWrite = false →
      (registers i).incarnation.toNat + 2 < 2 ^ 32)
    (hw : ∀ i, ∀ w ∈ s.writes i, w ∈ writes i)
    (hl : ∀ h < cfg.n, ∀ i < cfg.nb, (s.cells h i).Later (cells h i))
    (hr : ∀ h < cfg.n, ∀ i < cfg.nb, (cells h i).Ready (registers i) (writes i))
    (h : ({ s with registers, writes } : State).pushToWriter cfg cells = .ok s') :
    Inv cfg s' := by
  unfold State.pushToWriter at h
  split at h
  · cases h
  · next hno =>
      cases h
      push Not at hno
      have hno : ∀ h < cfg.n, ∀ i < cfg.nb, (cells h i).throws cfg.allowCustom = false :=
        fun h hh i hi => Bool.eq_false_iff.mpr (hno h hh i hi)
      have hkept : ∀ h < cfg.n, ∀ i < cfg.nb,
          ((cells h i).push cfg.allowCustom (registers i).buffer).Kept (registers i) (writes i) :=
        fun h hh i hi => (hr h hh i hi).push (hno h hh i hi)
      have hlater : ∀ h < cfg.n, ∀ i < cfg.nb, (s.cells h i).Later
          ((cells h i).push cfg.allowCustom (registers i).buffer) := fun h hh i hi =>
        (hl h hh i hi).trans (Cell.later_push (hr h hh i hi) (hno h hh i hi))
      have hack : ∀ h < cfg.n, ∀ i < cfg.nb, (s.cells h i).acknowledged ≤
          ((cells h i).push cfg.allowCustom (registers i).buffer).acknowledged :=
        fun h hh i hi => (hlater h hh i hi).acknowledged_le (hI.cells h hh i hi).toHistory
          (hkept h hh i hi).toHistory
      refine ⟨hbuf, hidle, hkept, hI.reader, hI.hosts, hI.handles, fun h m hm => ?_, hI.readings,
        fun i hi k hk => ?_, fun x hx => ?_⟩
      · have hh : h < cfg.n := hI.hosts ▸ (List.getElem?_eq_some_iff.mp hm).1
        exact (hI.serves h m hm).mono (fun _ _ ha => ha) fun _ _ hg =>
          hg.mono List.prefix_rfl fun rd hrd => (hlater h hh _ (hI.index rd hrd)).written
      · refine (hI.confirmed i hi k hk).trans (countP_mono fun h hh hle => ?_)
        exact decide_eq_true ((of_decide_eq_true hle).trans (hack h hh i hi))
      · obtain ⟨rd, hrd, hm, hle⟩ := hI.results x hx
        exact ⟨rd, hrd, hw _ _ hm, hle⟩

/-- As long as it does not wrap, an incarnation increases. -/
theorem incarnate_cases {allowCustom : Bool} {r : Register} {custom : Option UInt32} {inc : UInt32}
    (hr : r.incarnation.toNat + 2 < 2 ^ 32) (h : r.incarnate allowCustom custom = .ok inc) :
    r.incarnation.toNat < inc.toNat := by
  unfold Register.incarnate at h
  split at h
  · cases h
    rw [UInt32.toNat_add]
    have : (1 : UInt32).toNat = 1 := rfl
    omega
  · split at h
    · split at h
      · cases h
      · next hle =>
          cases h
          exact UInt32.lt_iff_toNat_lt.mp (UInt32.not_le.mp hle)
    · cases h

/-- A WRITE joins the history, and the cells are pushed to. -/
theorem Inv.write {i : Nat} {custom : Option UInt32} (hI : Inv cfg s) (hi : i < cfg.nb)
    (hs : s.write cfg i custom = .ok s') : Inv cfg s' := by
  unfold State.write at hs
  split at hs
  · cases hs
  · next ho =>
      cases hinc : (s.registers i).incarnate cfg.allowCustom custom with
      | error e => rw [hinc] at hs; cases hs
      | ok inc =>
          rw [hinc] at hs
          have hlt := incarnate_cases (hI.idle i hi (Bool.eq_false_iff.mpr ho)) hinc
          have hw : ∀ j, ∀ w ∈ s.writes j, w ∈ Function.update s.writes i
              (s.writes i ++ [Subslot.mk inc.toNat (s.registers i).buffer]) j := by
            intro j w hm
            by_cases hj : j = i
            · subst hj
              rw [Function.update_self]
              exact List.mem_append_left _ hm
            · rwa [Function.update_of_ne hj]
          refine hI.pushToWriter (fun j hj hf => ?_) (fun j hj hf => ?_) hw
            (fun h hh j hj => ?_) (fun h hh j hj => ?_) hs
          · by_cases hji : j = i
            · subst hji
              rw [Function.update_self, Function.update_self]
              exact List.mem_append_right _ (List.mem_singleton_self _)
            · rw [Function.update_of_ne hji] at hf ⊢
              rw [Function.update_of_ne hji]
              exact hI.buffer j hj hf
          · by_cases hji : j = i
            · subst hji
              rw [Function.update_self] at hf
              cases hf
            · rw [Function.update_of_ne hji] at hf ⊢
              exact hI.idle j hj hf
          · split
            · next hji =>
                subst hji
                exact ⟨List.prefix_rfl, Nat.le_refl _⟩
            · exact .refl _
          · have hk := hI.cells h hh j hj
            by_cases hji : j = i
            · subst hji
              rw [if_pos rfl, Function.update_self]
              -- a WRITE that waits is replaced by one of a greater incarnation
              have hle : (s.cells h j).register.incarnation ≤
                  (s.registers j).incarnation.toNat + 2 := by
                cases ht : (s.cells h j).toWrite with
                | none => exact Nat.le_of_eq (hk.latest ht)
                | some inc' =>
                    obtain ⟨-, rfl, hlt'⟩ := hk.waiting inc' ht
                    exact Nat.le_of_lt hlt'
              have hh' := hk.toHistory.mono (hw j)
              refine ⟨⟨hh'.header, hh'.sorted, hh'.bound, hh'.subset, hh'.pos, hh'.completed⟩,
                fun inc' he => ?_, nofun⟩
              cases he
              refine ⟨.inr ?_, rfl, Nat.lt_of_le_of_lt hle (Nat.add_lt_add_right hlt 2)⟩
              rw [Function.update_self]
              exact List.mem_append_right _ (List.mem_singleton_self _)
            · rw [if_neg hji, Function.update_of_ne hji, Function.update_of_ne hji]
              exact hk.ready

/-- WRITEs complete, and the next ones are pushed. -/
theorem Inv.tickWriter {h : Nat} {done : List Nat} (hI : Inv cfg s)
    (hf : ∀ i < cfg.nb, (s.registers i).filled = false)
    (hs : s.tickWriter cfg h done = .ok s') : Inv cfg s' := by
  refine hI.pushToWriter hI.buffer hI.idle (fun _ _ hw => hw) (fun h' _ i _ => ?_)
    (fun h' hh i hi => ?_) hs
  · split
    · exact Cell.later_complete _
    · exact .refl _
  · split
    · exact (hI.cells h' hh i hi).complete (hI.buffer i hi (hf i hi))
    · exact (hI.cells h' hh i hi).ready

/-- A register changes, and not its incarnation. -/
theorem Inv.setRegister {i : Nat} {r : Register} (hI : Inv cfg s)
    (he : r.incarnation = (s.registers i).incarnation)
    (hb : i < cfg.nb → r.filled = false → ⟨r.incarnation.toNat, r.buffer⟩ ∈ s.writes i)
    (ho : i < cfg.nb → r.outstandingWrite = false → r.incarnation.toNat + 2 < 2 ^ 32) :
    Inv cfg { s with registers := Function.update s.registers i r } := by
  have hcases : ∀ j, Function.update s.registers i r j = s.registers j ∨
      j = i ∧ Function.update s.registers i r j = r := fun j => by
    by_cases hj : j = i
    · subst hj
      exact .inr ⟨rfl, Function.update_self ..⟩
    · exact .inl (Function.update_of_ne hj ..)
  refine ⟨fun j hj => ?_, fun j hj => ?_, fun h hh j hj => ?_, hI.reader, hI.hosts, hI.handles,
    hI.serves, hI.readings, hI.confirmed, hI.results⟩ <;> dsimp only <;>
    rcases hcases j with hc | ⟨rfl, hc⟩ <;> rw [hc]
  · exact hI.buffer j hj
  · exact hb hj
  · exact hI.idle j hj
  · exact ho hj
  · exact hI.cells h hh j hj
  · have hk := hI.cells h hh j hj
    exact ⟨hk.toHistory, he ▸ hk.waiting, he ▸ hk.latest⟩

/-- A buffer that is filled is not written yet. -/
theorem Inv.fill (hI : Inv cfg s) (i : Nat) (value : Bytes) : Inv cfg (s.fill i value) := by
  unfold State.fill
  split
  · exact hI
  · exact hI.setRegister rfl (fun _ => nofun) fun hi => hI.idle i hi

/-- The hosts that completed acknowledged the WRITE. -/
theorem Inv.completed {i : Nat} (hI : Inv cfg s) (hn : 1 ≤ cfg.n) (hi : i < cfg.nb)
    (hs : s.completed cfg i = .ok s') : Inv cfg s' := by
  unfold State.completed at hs
  split at hs
  · cases hs
  · split at hs
    · next hq =>
        cases hs
        have hpos : 0 < (List.range cfg.n).countP fun h => (s.cells h i).isCompleted :=
          Nat.lt_of_lt_of_le (Nat.div_pos (Nat.succ_le_succ hn) (Nat.succ_pos 1)) hq
        -- a quorum is not empty, so that some host knows the incarnation
        obtain ⟨h, hh, hc⟩ := List.countP_pos_iff.mp hpos
        have hbound := ((hI.cells h (List.mem_range.mp hh) i hi).isCompleted hc).2
        have hI' := hI.setRegister (r := { s.registers i with outstandingWrite := false }) rfl
          (hI.buffer i) fun _ _ => hbound
        refine ⟨hI'.buffer, hI'.idle, hI'.cells, hI'.reader, hI'.hosts, hI'.handles, hI'.serves,
          hI'.readings, fun j hj k hk => ?_, hI'.results⟩
        change k ∈ Function.update s.confirmed i _ j at hk
        by_cases hji : j = i
        · subst hji
          rw [Function.update_self] at hk
          rcases List.mem_cons.mp hk with rfl | hk
          · refine Nat.le_trans hq (countP_mono fun h hh hc => decide_eq_true ?_)
            exact Nat.le_of_eq ((hI.cells h hh j hj).isCompleted hc).1.symm
          · exact hI.confirmed j hj k hk
        · rw [Function.update_of_ne hji] at hk
          exact hI.confirmed j hj k hk
    · cases hs
      exact hI

/-- The READ is begun, under the next handle, by each host. -/
theorem Inv.read {i : Nat} {stale : List (List Readers.Handle)} (hI : Inv cfg s) (hi : i < cfg.nb)
    (hf : s.Intact (.read i stale)) : Inv cfg (s.read i stale) := by
  have hpre : s.readings <+: (s.read i stale).readings := List.prefix_append ..
  have hreaders : (s.read i stale).reader.readers = s.reader.readers.map fun m =>
      m.read s.reader.nextHandle i (m.queuedReads.map Prod.fst ++ [s.reader.nextHandle]) := by
    rw [show stale = _ from hf]
    exact Readers.ReplicatedReader.readAll_map i _ _
  have hinv : (s.read i stale).reader.Inv :=
    Readers.ReplicatedReader.inv_step (l := .read i stale) hI.reader hf rfl
  refine ⟨hI.buffer, hI.idle, hI.cells, hinv, ?_, ?_, fun h m hm => ?_, fun rd hrd => ?_,
    hI.confirmed, fun x hx => ?_⟩
  · rw [hreaders, List.length_map, hI.hosts]
  · change s.reader.nextHandle + 1 = (s.readings ++ [_]).length
    rw [hI.handles, List.length_append, List.length_singleton]
  · rw [hreaders, List.getElem?_map] at hm
    obtain ⟨m₀, hm₀, rfl⟩ := Option.map_eq_some_iff.mp hm
    refine Readers.ManagedReader.Serves.read (hI.reader.inv m₀ (List.mem_of_getElem? hm₀))
      ((hI.serves h m₀ hm₀).mono (fun _ _ ha => ha.mono hpre) fun _ _ hg =>
        hg.mono hpre fun _ _ => List.prefix_rfl) ?_
    rw [hI.handles]
    exact ⟨_, List.getElem?_concat_length, rfl⟩
  · rcases List.mem_append.mp hrd with hrd | hrd
    · exact hI.readings rd hrd
    · rw [List.mem_singleton.mp hrd]
      exact ⟨hi, hI.confirmed i hi⟩
  · obtain ⟨rd, hrd, hrest⟩ := hI.results x hx
    exact ⟨rd, getElem?_of_prefix hpre hrd, hrest⟩

/-- The incarnation in memory is two ahead of the WRITE that is found. -/
theorem Inv.gets {h i : Nat} {rd : Reading} {handle : Readers.Handle} {found : Subslot}
    (hI : Inv cfg s) (hh : h < cfg.n) (hrd : s.readings[handle]? = some rd) (hi : rd.index = i)
    (ha : (s.cells h i).Answers (rd.low h) found) :
    s.Gets h handle ⟨(found.incarnation + 2 ^ 32 - 2) % 2 ^ 32, found.value⟩ := by
  subst hi
  obtain ⟨w, hw, hle, rfl⟩ := ha
  have hb := (hI.cells h hh rd.index (hI.index rd (List.mem_of_getElem? hrd))).bound w hw
  have he : (w.incarnation + 2 + 2 ^ 32 - 2) % 2 ^ 32 = w.incarnation := by omega
  refine ⟨rd, hrd, ?_, ?_⟩
  · rw [he]
    exact hw
  · rw [he]
    exact hle

/-- The hosts answer as single-host registers do. -/
theorem Inv.tickReader {wcs : List (List Readers.Completion)} {stale : List (List Readers.Handle)}
    (hI : Inv cfg s) (hf : s.Intact (.tickReader wcs stale))
    (hs : s.tickReader cfg wcs stale = .ok s') : Inv cfg s' := by
  unfold State.tickReader at hs
  split at hs
  · next hans =>
      unfold withReader at hs
      split at hs
      · cases hs
      · next reader ht =>
          cases hs
          have hstep : Readers.ReplicatedReader.Step s.reader (.tick wcs stale) reader := ht
          obtain ⟨ms, hms, ht⟩ := bind_eq_ok.mp ht
          cases ht
          rw [show stale = _ from hf] at hms
          obtain ⟨hlen, -⟩ := Readers.ReplicatedReader.tickAll_spec hI.reader.inv hms
          have hinv := Readers.ReplicatedReader.inv_step (l := .tick wcs stale) hI.reader hf hstep
          refine ⟨hI.buffer, hI.idle, hI.cells, hinv, hlen.trans hI.hosts, hI.handles,
            fun h m hm => ?_, hI.readings, hI.confirmed, hI.results⟩
          obtain ⟨m₀, hm₀, htick⟩ := Readers.ReplicatedReader.tickAll_getElem? hms hm
          have hh : h < cfg.n := hI.hosts ▸ (List.getElem?_eq_some_iff.mp hm₀).1
          have hserves := hI.serves h m₀ hm₀
          refine hserves.tick (hI.reader.inv m₀ (List.mem_of_getElem? hm₀))
            (fun x hx found hfound e he hj => ?_) htick
          -- the READ that completes is that of the handle it is scheduled under
          obtain ⟨rd, hrd, hi⟩ := hserves.reader.pending x.1
            (List.mem_append_left _ (List.of_mem_zip hx).1) e he hj
          exact hI.gets hh hrd hi (hans h hh m₀ hm₀ x hx found hfound e he hj rd hrd)
  · cases hs

/-- A quorum of answers meets the quorum of hosts of each WRITE that was known to be completed. -/
theorem Inv.regular {handle : Readers.Handle} {x : Subslot} (hI : Inv cfg s) (hn : cfg.n % 2 = 1)
    (hlt : handle < s.reader.nextHandle)
    (hq : (s.reader.readers.length + 1) / 2 ≤ (s.reader.polled handle).length)
    (hx : Readers.ReplicatedReader.highest none (s.reader.polled handle) = some x) :
    s.Regular (handle, x) := by
  obtain ⟨hm, hle, -⟩ := Readers.ReplicatedReader.highest_cases hx
  obtain ⟨rd, hrd⟩ : ∃ rd, s.readings[handle]? = some rd :=
    ⟨_, List.getElem?_eq_getElem (hI.handles ▸ hlt)⟩
  have hans : ∀ h m, s.reader.readers[h]? = some m → ∀ y, m.poll handle = some y →
      h < cfg.n ∧ y ∈ (s.cells h rd.index).written ∧ rd.low h ≤ y.incarnation := by
    intro h m hm y hy
    obtain ⟨rd', hrd', hrest⟩ := (hI.serves h m hm).poll hy
    cases hrd.symm.trans hrd'
    exact ⟨hI.hosts ▸ (List.getElem?_eq_some_iff.mp hm).1, hrest⟩
  obtain ⟨hidx, hbefore⟩ := hI.readings rd (List.mem_of_getElem? hrd)
  refine ⟨rd, hrd, ?_, fun k hk => ?_⟩
  · obtain ⟨m, hmem, hy⟩ := List.mem_filterMap.mp (hm.resolve_right nofun)
    obtain ⟨h, hget⟩ := List.mem_iff_getElem?.mp hmem
    obtain ⟨hh, hw, -⟩ := hans h m hget x hy
    exact (hI.cells h hh rd.index hidx).subset x hw
  · -- the two quorums have more hosts than there are
    have hcount : (List.range cfg.n).length <
        ((List.range cfg.n).countP fun h => decide (k ≤ rd.low h)) +
        (List.range cfg.n).countP fun h =>
          (s.reader.readers[h]?.bind fun m => m.poll handle).isSome := by
      have hlen := length_filterMap_eq_countP_range (fun m : Readers.ManagedReader =>
        m.poll handle) s.reader.readers
      have hk := hbefore k hk
      rw [hI.hosts] at hlen hq
      rw [Readers.ReplicatedReader.polled, hlen] at hq
      rw [List.length_range]
      unfold Config.quorum at hk
      omega
    obtain ⟨h, -, hlow, hsome⟩ := exists_of_countP hcount
    obtain ⟨y, hy⟩ := Option.isSome_iff_exists.mp hsome
    obtain ⟨m, hget, hy⟩ := Option.bind_eq_some_iff.mp hy
    have hyle := hle y (List.mem_filterMap.mpr ⟨m, List.mem_of_getElem? hget, hy⟩)
    exact (of_decide_eq_true hlow).trans ((hans h m hget y hy).2.2.trans hyle)

/-- **The highest of a quorum is regular**: two quorums of an odd number of hosts meet. -/
theorem Inv.poll {handle : Readers.Handle} {freed : List Readers.JobHandle} (hI : Inv cfg s)
    (hn : cfg.n % 2 = 1) (hf : s.Intact (.poll handle freed))
    (hs : s.poll handle freed = .ok s') : Inv cfg s' := by
  unfold State.poll withReader at hs
  split at hs
  · cases hs
  · next reader hmap =>
      cases hs
      have hstep : Readers.ReplicatedReader.Step s.reader (.poll handle freed) reader := hmap
      have hinv := Readers.ReplicatedReader.inv_step (l := .poll handle freed) hI.reader hf hstep
      obtain ⟨⟨reader', y⟩, hp, rfl⟩ := map_eq_ok.mp hmap
      rw [show freed = _ from hf] at hp
      unfold Readers.ReplicatedReader.poll at hp
      split at hp
      · cases hp; exact hI
      · next hle =>
          split at hp
          · cases hp; exact hI
          · next x hx =>
              have hready : s.reader.Ready handle := Nat.not_lt.mp hle
              obtain ⟨ms, hms, hp⟩ := bind_eq_ok.mp hp
              cases hp
              refine ⟨hI.buffer, hI.idle, hI.cells, hinv, ?_, hI.handles, fun h m hm => ?_,
                hI.readings, hI.confirmed, fun y hy => ?_⟩
              · obtain ⟨hlt, hdone⟩ := hI.reader.of_ready hready
                obtain ⟨ms', hms', hl, -⟩ :=
                  Readers.ReplicatedReader.releaseAll_ok hI.reader.inv hlt hdone
                cases hms.symm.trans hms'
                exact hl.trans hI.hosts
              · obtain ⟨m₀, hm₀, hrel⟩ := Readers.ReplicatedReader.releaseAll_getElem? hms hm
                exact (hI.serves h m₀ hm₀).release hrel
              · rcases List.mem_append.mp hy with hy | hy
                · exact hI.results y hy
                · rw [List.mem_singleton.mp hy]
                  exact hI.regular hn (hI.reader.of_ready hready).1 hready hx

theorem inv_next {l : Label} (hn : cfg.n % 2 = 1) (hI : Inv cfg s) (hw : s.Written cfg l)
    (hf : s.Intact l) (hs : Step cfg s l s') : Inv cfg s' := by
  cases l with
  | fill i value =>
      cases hs
      split
      · exact hI.fill i value
      · exact hI
  | write i custom =>
      simp only [Step, next] at hs
      split at hs
      · next hi => exact hI.write hi hs
      · cases hs
        exact hI
  | tickWriter h done => exact hI.tickWriter hw hs
  | completed i =>
      simp only [Step, next] at hs
      split at hs
      · next hi =>
          exact hI.completed (Nat.pos_of_ne_zero fun h0 => by rw [h0] at hn; cases hn) hi hs
      · cases hs
        exact hI
  | read i stale =>
      cases hs
      split
      · next hi => exact hI.read hi hf
      · exact hI
  | poll handle freed => exact hI.poll hn hf hs
  | tickReader wcs stale => exact hI.tickReader hf hs

/-- **Regularity.**  With an odd number of hosts, and as long as what is read in the elements just
erased is what they held, a READ returns a WRITE of the register, value and incarnation, and it is
not older than one that was known to be completed before it. -/
theorem polled_regular (cfg : Config) (hn : cfg.n % 2 = 1) {s : State}
    (h : Reachable (Init cfg) (Step cfg) (fun s l => s.Written cfg l ∧ s.Intact l) s) :
    ∀ x ∈ s.reader.results, ∃ rd, s.readings[x.1]? = some rd ∧ x.2 ∈ s.writes rd.index ∧
      ∀ k ∈ rd.before, k ≤ x.2.incarnation := by
  have hI : Inv cfg s := by
    refine h.induct (P := Inv cfg) (fun s hs => ?_)
      fun s l s' _ hI hg hs => inv_next hn hI hg.1 hg.2 hs
    rw [show s = start cfg from hs]
    exact inv_start cfg (Nat.pos_of_ne_zero fun h0 => by rw [h0] at hn; cases hn)
  exact hI.results

/-- `n` hosts of one register, with one buffer each. -/
def Example.hosts (n : Nat) : Config where
  nb := 1
  size := 1
  allowCustom := true
  pools := List.replicate n [0]
  nodup := fun _ hp => List.eq_of_mem_replicate hp ▸ List.nodup_singleton _

/-- The hosts `completing` complete a WRITE, then the hosts `answering` answer a READ. -/
def Example.following (n : Nat) (completing answering : List Nat) : List Label :=
  [.fill 0 [1], .write 0 none] ++ completing.map (.tickWriter · [0]) ++
    [.completed 0, .read 0 (List.replicate n [0]),
      .tickReader ((List.range n).map fun h =>
        if h ∈ answering then
          [⟨0, true, (if h ∈ completing then some ⟨3, [1]⟩ else some ⟨2, [0]⟩, none), false⟩]
        else []) (List.replicate n []),
      .poll 0 (List.replicate n 0)]

/-- What was read, and what was known to be completed before. -/
def Example.returned (x : Readers.Handle × Subslot) (before : List Nat) (s : State) : Bool :=
  s.reader.results == [x] && s.readings.map (fun rd => (rd.index, rd.before)) == [(0, before)]

/-- Of two hosts, the one that answers the READ is not the one that completed the WRITE. -/
theorem not_polled_regular :
    ¬ ∀ cfg : Config, 1 ≤ cfg.n → ∀ s : State,
      Reachable (Init cfg) (Step cfg) (fun s l => s.Written cfg l ∧ s.Intact l) s →
        ∀ x ∈ s.reader.results, ∃ rd, s.readings[x.1]? = some rd ∧ x.2 ∈ s.writes rd.index ∧
          ∀ k ∈ rd.before, k ≤ x.2.incarnation := by
  intro h
  obtain ⟨s, hs, hr⟩ : ∃ s, Reachable (Init (Example.hosts 2)) (Step (Example.hosts 2))
      (fun s l => s.Written (Example.hosts 2) l ∧ s.Intact l) s ∧
        Example.returned (0, ⟨0, [0]⟩) [1] s = true :=
    exists_reachable (start (Example.hosts 2)) rfl (Example.following 2 [0] [1])
      (by decide +kernel)
  simp only [Example.returned, Bool.and_eq_true, beq_iff_eq] at hr
  obtain ⟨rd, hrd, -, hk⟩ := h (Example.hosts 2) (by decide) s hs (0, ⟨0, [0]⟩)
    (by rw [hr.1]; exact List.mem_singleton_self _)
  have hb := congrArg (·[0]?) hr.2
  simp only [List.getElem?_map, hrd, Option.map_some, List.getElem?_cons_zero, Option.some.injEq,
    Prod.mk.injEq] at hb
  exact absurd (hk 1 (by rw [hb.2]; exact List.mem_singleton_self _)) (by decide)

/-- Of three hosts, one that completed the WRITE answers. -/
theorem polled_regular_three : ∃ (s : State) (rd : Reading), s.readings[0]? = some rd ∧
    rd.before = [1] ∧ (0, ⟨1, [1]⟩) ∈ s.reader.results ∧ s.Regular (0, ⟨1, [1]⟩) := by
  obtain ⟨s, hs, hr⟩ : ∃ s, Reachable (Init (Example.hosts 3)) (Step (Example.hosts 3))
      (fun s l => s.Written (Example.hosts 3) l ∧ s.Intact l) s ∧
        Example.returned (0, ⟨1, [1]⟩) [1] s = true :=
    exists_reachable (start (Example.hosts 3)) rfl (Example.following 3 [0, 1] [2, 1])
      (by decide +kernel)
  simp only [Example.returned, Bool.and_eq_true, beq_iff_eq] at hr
  have hm : (0, ⟨1, [1]⟩) ∈ s.reader.results := by
    rw [hr.1]
    exact List.mem_singleton_self _
  have hreg := polled_regular (Example.hosts 3) (by decide) hs _ hm
  obtain ⟨rd, hrd, -⟩ := id hreg
  have hb := congrArg (·[0]?) hr.2
  simp only [List.getElem?_map, hrd, Option.map_some, List.getElem?_cons_zero, Option.some.injEq,
    Prod.mk.injEq] at hb
  exact ⟨s, rd, hrd, hb.2, hm, hreg⟩

end State

end Ubft.Swmr.Replicated

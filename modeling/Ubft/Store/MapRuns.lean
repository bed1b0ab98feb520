import Ubft.Store.VectorTailMap
import Ubft.Support.Runs

/-!
# Store — the runs of a tail map

Keys have 64 bits, of which `begin()->first + tail` may have more: the loop of `tryEmplace` then
drops an entry that is in the tail.  Up to there the ring holds the keys inserted
since the last `clear`, those left behind and those popped apart (`contents_of_reachable`).
-/

namespace Ubft

universe u

namespace VectorTailMap

variable {V : Type u}

/-- `head == nullptr`. -/
def empty (r : VectorTailMap V) : Bool := r.head.isNone

/-- `popFront` until the map is empty. -/
def popAll (r : VectorTailMap V) : Nat → VectorTailMap V
  | 0 => r
  | fuel + 1 => if r.empty then r else popAll r.popFront fuel

/-- Every element is popped; `min` is back at 0. -/
def clear (r : VectorTailMap V) : VectorTailMap V := { r.popAll r.tail with min := 0 }

/-- What an iterator visits until it is at `end()`, when it is after so many steps. -/
def visit (r : VectorTailMap V) : Nat → Option Nat → Option (List (Nat × V))
  | _, none => some []
  | 0, some _ => none
  | fuel + 1, some i =>
      (r.dynArray i).bind fun e => (visit r fuel e.next).map ((e.key, e.value) :: ·)

/-- The entries from `begin()` to `end()`, in `tail` steps. -/
def entries (r : VectorTailMap V) : Option (List (Nat × V)) := r.visit r.tail r.head

/-- How many elements the list from `head` on has. -/
def size (r : VectorTailMap V) : Option Nat := r.entries.map List.length

/-- The entry at `rbegin()`. -/
def rbegin (r : VectorTailMap V) : Option (Nat × V) :=
  (r.back.bind r.dynArray).map fun e => (e.key, e.value)

/-! ### What the ring holds -/

/-- Visiting the links gives the list. -/
theorem Linked.visit {r : VectorTailMap V} {l : List (Nat × V)} (h : Linked r.tail r.dynArray l)
    {fuel : Nat} (hf : l.length ≤ fuel) : r.visit fuel (slot? r.tail l) = some l := by
  induction l generalizing fuel with
  | nil => cases fuel <;> rfl
  | cons e l ih =>
      cases fuel with
      | zero => exact absurd hf (Nat.not_succ_le_zero _)
      | succ fuel =>
          have hv := ih h.2 (Nat.le_of_succ_le_succ hf)
          simp only [slot?, List.head?_cons, Option.map_some, VectorTailMap.visit, h.1,
            Option.bind_some]
          exact congrArg (Option.map _) hv

namespace Holds

variable {r : VectorTailMap V} {l : List (Nat × V)} {key : Nat} {v : V}

/-- What is visited from `begin()` on. -/
theorem entries (h : Holds r l) (ht : 0 < r.tail) : r.entries = some l := by
  rw [VectorTailMap.entries, h.head]
  exact h.linked.visit (h.inLap.length_le ht)

theorem empty_iff (h : Holds r l) : r.empty = true ↔ l = [] := by
  rw [VectorTailMap.empty, h.head, slot?]
  cases l with
  | nil => exact ⟨fun _ => rfl, fun _ => rfl⟩
  | cons e l => exact ⟨by rintro ⟨⟩, by rintro ⟨⟩⟩

theorem rbegin (h : Holds r l) : r.rbegin = l.getLast? := by
  rw [VectorTailMap.rbegin, h.back]
  cases hl : l.getLast? with
  | none => rfl
  | some e =>
      obtain ⟨next, hn⟩ := h.linked.get (List.mem_of_getLast? hl)
      rw [Option.map_some, Option.bind_some, hn]
      rfl

/-- Popping as often as there are elements. -/
theorem popAll (h : Holds r l) {fuel : Nat} (hf : l.length ≤ fuel) :
    Holds (r.popAll fuel) [] ∧ (r.popAll fuel).tail = r.tail := by
  induction fuel generalizing r l with
  | zero =>
      obtain rfl := List.eq_nil_of_length_eq_zero (Nat.le_zero.mp hf)
      exact ⟨h, rfl⟩
  | succ fuel ih =>
      unfold VectorTailMap.popAll
      split
      · next he =>
          obtain rfl := h.empty_iff.mp he
          exact ⟨h, rfl⟩
      · next he =>
          obtain ⟨e, l, rfl⟩ := List.exists_cons_of_ne_nil fun hl => he (h.empty_iff.mpr hl)
          have hpop := ih h.popFront (Nat.le_of_succ_le_succ hf)
          rwa [tail_popFront] at hpop

/-- The first entry that is in the tail of a key is far enough from the end of the keys. -/
def NoWrap (n : Nat) (l : List (Nat × V)) (key : Nat) : Prop :=
  ∀ e ∈ l.find? (fun e => decide (key < e.1 + n)), e.1 + n < 2 ^ 64

instance (n : Nat) (l : List (Nat × V)) (key : Nat) : Decidable (NoWrap n l key) :=
  inferInstanceAs (Decidable
    (∀ e ∈ l.find? (fun e => decide (key < e.1 + n)), e.1 + n < 2 ^ 64))

end Holds

/-- Those in the tail of the key are left, and no other. -/
theorem left_eq_filter {l : List (Nat × V)} (hl : l.Pairwise fun e e' => e.1 < e'.1) {n key : Nat}
    (hw : Holds.NoWrap n l key) : left n key l = l.filter (fun e => decide (key < e.1 + n)) := by
  induction l with
  | nil => rfl
  | cons e l ih =>
      obtain ⟨he, hl⟩ := List.pairwise_cons.mp hl
      unfold left at ih ⊢
      by_cases hle : e.1 + n ≤ key
      · have hmod : (e.1 + n) % 2 ^ 64 ≤ key := (Nat.mod_le _ _).trans hle
        rw [Holds.NoWrap, List.find?_cons_of_neg (by simpa using hle)] at hw
        rw [List.dropWhile_cons_of_pos (by simpa using hmod), ih hl hw,
          List.filter_cons_of_neg (by simpa using hle)]
      · have hlt : e.1 + n < 2 ^ 64 := hw e (List.find?_cons_of_pos (by simpa using hle))
        have hmod : ¬ (e.1 + n) % 2 ^ 64 ≤ key := by rwa [Nat.mod_eq_of_lt hlt]
        rw [List.dropWhile_cons_of_neg (by simpa using hmod)]
        refine (List.filter_eq_self.mpr fun x hx => ?_).symm
        rcases List.mem_cons.mp hx with rfl | hx
        · simpa using hle
        · have := he x hx
          exact decide_eq_true (by omega)

/-- An entry that stops the loop does not wrap: it would be below itself. -/
theorem add_lt_of_stop {n key k : Nat} (hk : k < key) (hkey : key < 2 ^ 64) (hn : n < 2 ^ 64)
    (hstop : key < (k + n) % 2 ^ 64) : k + n < 2 ^ 64 := by
  omega

/-- Where anything is left, the first one in the tail of the key does not wrap. -/
theorem noWrap_of_mem_left {l : List (Nat × V)} (hl : l.Pairwise fun e e' => e.1 < e'.1)
    {n key : Nat} (hlt : ∀ e ∈ l, e.1 < key) (hkey : key < 2 ^ 64) (hn : n < 2 ^ 64)
    {e : Nat × V} (he : e ∈ left n key l) : Holds.NoWrap n l key := by
  intro f hf
  obtain ⟨-, g, hg, -, hstop⟩ := (mem_left hl).mp he
  obtain ⟨-, as, bs, rfl, has⟩ := List.find?_eq_some_iff_append.mp hf
  have hnear : key < g.1 + n := hstop.trans_le (Nat.mod_le _ _)
  have hadd := add_lt_of_stop (hlt g hg) hkey hn hstop
  -- what is before the first one is not in the tail of the key
  have hle : f.1 ≤ g.1 := by
    rcases List.mem_append.mp hg with hg | hg
    · exact absurd (has g hg) (by simpa using hnear)
    · rcases List.mem_cons.mp hg with rfl | hg
      · exact le_rfl
      · exact ((List.pairwise_cons.mp (List.pairwise_append.mp hl).2.1).1 g hg).le
  exact (Nat.add_le_add_right hle n).trans_lt hadd

/-- A key above the others is linked behind those of its tail. -/
theorem holds_emplaceBack {r : VectorTailMap V} {l : List (Nat × V)} {key : Nat} (h : Holds r l)
    (ht : 0 < r.tail) (hw : Holds.NoWrap r.tail l key)
    (hlt : ∀ e ∈ l, e.1 < key) (v : V) :
    Holds ((skip { r with min := key } key r.tail).emplaceBack key v)
      (l.filter (fun e => decide (key < e.1 + r.tail)) ++ [(key, v)]) := by
  rw [← left_eq_filter h.inLap.sorted hw]
  exact h.put ht v fun e he => hlt e ((mem_left h.inLap.sorted).mp he).1

/-! ### Runs -/

/-- A map, the entries inserted since it was last cleared, and the keys popped since then. -/
structure Logged (V : Type u) where
  map : VectorTailMap V
  inserted : List (Nat × V) := []
  popped : List Nat := []

/-- The calls that change a map. -/
inductive Op (V : Type u) where
  | tryEmplace (key : Nat) (v : V)
  | popFront
  | clear

namespace Logged

variable {s s' : Logged V} {key : Nat} {v : V} {n : Nat}

/-- A call, logged: what was inserted and what was popped. -/
def next (s : Logged V) : Op V → Except String (Logged V)
  | .tryEmplace key v =>
    match s.map.tryEmplace key v with
    | .error e => .error e
    | .ok (map, b) => .ok { s with
        map
        inserted := if b then s.inserted ++ [(key, v)] else s.inserted }
  | .popFront =>
    match s.map.first? with
    | none => .error "Empty map while accessing front."
    | some e => .ok { s with
        map := s.map.popFront
        popped := s.popped ++ [e.key] }
  | .clear => .ok { map := s.map.clear }

/-- An empty map of tail `n`. -/
def Init (n : Nat) (s : Logged V) : Prop := s = { map := { tail := n } }

/-- A call that throws nothing. -/
def Step (s : Logged V) (o : Op V) (s' : Logged V) : Prop := s.next o = .ok s'

/-- Keys increase since the map was last cleared, and no empty map is popped. -/
def Increasing (s : Logged V) : Op V → Prop
  | .tryEmplace key _ => key < 2 ^ 64 ∧ ∀ e ∈ s.inserted, e.1 < key
  | .popFront => s.map.empty = false
  | .clear => True

instance (s : Logged V) : DecidablePred s.Increasing
  | .tryEmplace key _ => inferInstanceAs (Decidable (key < 2 ^ 64 ∧ ∀ e ∈ s.inserted, e.1 < key))
  | .popFront => inferInstanceAs (Decidable (_ = _))
  | .clear => inferInstanceAs (Decidable True)

/-- The largest key. -/
def largest (s : Logged V) : Option Nat := s.inserted.getLast?.map (·.1)

/-- The entry is above the largest key minus the tail, and it was not popped. -/
def Kept (s : Logged V) (e : Nat × V) : Prop :=
  (∀ m ∈ s.largest, m < e.1 + s.map.tail) ∧ e.1 ∉ s.popped

instance (s : Logged V) : DecidablePred s.Kept :=
  fun _ => inferInstanceAs (Decidable ((∀ m ∈ s.largest, _) ∧ _))

/-- What the map is to contain. -/
def contents (s : Logged V) : List (Nat × V) := s.inserted.filter fun e => decide (s.Kept e)

/-- Where the keys leave the tail is on 64 bits. -/
def NoWrap (s : Logged V) : Op V → Prop
  | .tryEmplace key _ => Holds.NoWrap s.map.tail s.contents key
  | .popFront | .clear => True

instance (s : Logged V) : DecidablePred s.NoWrap
  | .tryEmplace key _ => inferInstanceAs (Decidable (Holds.NoWrap s.map.tail s.contents key))
  | .popFront | .clear => inferInstanceAs (Decidable True)

/-- The map contains what it is to. -/
structure Sound (n : Nat) (s : Logged V) : Prop where
  tail : s.map.tail = n
  holds : Holds s.map s.contents
  min : s.map.min = s.largest.getD 0
  sorted : s.inserted.Pairwise (fun e e' => e.1 < e'.1)
  popped : ∀ key ∈ s.popped, ∃ e ∈ s.inserted, e.1 = key

namespace Sound

theorem start (n : Nat) : Sound n ({ map := { tail := n } } : Logged V) where
  tail := rfl
  holds := ⟨trivial, nofun, rfl, rfl, .nil, .nil⟩
  min := rfl
  sorted := .nil
  popped := nofun

/-- The largest key ever inserted. -/
theorem le_largest (h : Sound n s) {m : Nat} (hm : m ∈ s.largest) :
    (∃ e ∈ s.inserted, e.1 = m) ∧ ∀ e ∈ s.inserted, e.1 ≤ m := by
  obtain ⟨x, hx, rfl⟩ := Option.map_eq_some_iff.mp hm
  obtain ⟨l, hl⟩ := List.getLast?_eq_some_iff.mp hx
  refine ⟨⟨x, List.mem_of_getLast? hx, rfl⟩, fun e he => ?_⟩
  have hsorted := h.sorted
  rw [hl] at he hsorted
  rcases List.mem_append.mp he with he | he
  · exact ((List.pairwise_append.mp hsorted).2.2 e he x List.mem_cons_self).le
  · exact (congrArg Prod.fst (List.mem_singleton.mp he)).le

/-- A larger key is never refused. -/
theorem min_le (h : Sound n s) (hk : ∀ e ∈ s.inserted, e.1 < key) : s.map.min ≤ key := by
  rw [h.min]
  cases hm : s.largest with
  | none => exact Nat.zero_le _
  | some m =>
      obtain ⟨⟨e, he, rfl⟩, -⟩ := h.le_largest hm
      exact (hk e he).le

theorem mem_inserted {e : Nat × V} (he : e ∈ s.contents) : e ∈ s.inserted :=
  (List.mem_filter.mp he).1

/-- A larger key is appended, and pushes out what it laps. -/
theorem tryEmplace (h : Sound n s) (hn : 0 < n) (hi : s.Increasing (.tryEmplace key v))
    (hw : s.NoWrap (.tryEmplace key v)) (hs : s.next (.tryEmplace key v) = .ok s') :
    Sound n s' := by
  obtain ⟨-, hlt⟩ := hi
  unfold next at hs
  dsimp only at hs
  rw [VectorTailMap.tryEmplace, if_neg (Nat.not_lt.mpr (h.min_le hlt))] at hs
  cases hs
  obtain ⟨ht, hm⟩ := Holds.tail_skip { s.map with min := key } key s.map.tail
  have htail : ((skip { s.map with min := key } key s.map.tail).emplaceBack key v).tail =
      s.map.tail := (Holds.tail_emplaceBack ..).trans ht
  have hholds := holds_emplaceBack h.holds (h.tail.symm ▸ hn) hw
    (fun e he => hlt e (mem_inserted he)) v
  have hcontents : s.contents.filter (fun e => decide (key < e.1 + s.map.tail)) ++ [(key, v)] =
      Logged.contents { s with
        map := (skip { s.map with min := key } key s.map.tail).emplaceBack key v
        inserted := s.inserted ++ [(key, v)] } := by
    have hlarge : ∀ m, m ∈ Logged.largest { s with inserted := s.inserted ++ [(key, v)] } ↔
        m = key := fun m => by
      rw [largest, List.getLast?_concat]
      exact ⟨fun hm => (Option.some.inj hm).symm, fun hm => congrArg some hm.symm⟩
    have hkept : ∀ e : Nat × V, Logged.Kept { s with
          map := (skip { s.map with min := key } key s.map.tail).emplaceBack key v
          inserted := s.inserted ++ [(key, v)] } e ↔
        key < e.1 + s.map.tail ∧ e.1 ∉ s.popped := fun e => by
      refine and_congr_left fun _ => ?_
      rw [htail]
      exact ⟨fun hall => hall key ((hlarge key).mpr rfl), fun hin m hm => (hlarge m).mp hm ▸ hin⟩
    have hnew : key < key + s.map.tail ∧ key ∉ s.popped := by
      refine ⟨Nat.lt_add_of_pos_right (h.tail.symm ▸ hn), fun hp => ?_⟩
      obtain ⟨e, he, hek⟩ := h.popped key hp
      exact absurd (hlt e he) (hek ▸ Nat.lt_irrefl _)
    rw [Logged.contents, List.filter_filter, Logged.contents, List.filter_append]
    refine congrArg₂ (· ++ ·) (List.filter_congr fun e he => ?_)
      (Eq.symm (List.filter_cons_of_pos ?_))
    · rw [← Bool.decide_and, decide_eq_decide, hkept]
      refine ⟨fun ⟨hin, hold⟩ => ⟨hin, hold.2⟩, fun ⟨hin, hp⟩ => ⟨hin, fun m hm => ?_, hp⟩⟩
      obtain ⟨⟨x, hx, rfl⟩, -⟩ := h.le_largest hm
      exact (hlt x hx).trans hin
    · exact decide_eq_true ((hkept (key, v)).mpr hnew)
  refine ⟨htail.trans h.tail, hcontents ▸ hholds, ?_, ?_, ?_⟩
  · refine (Holds.min_emplaceBack ..).trans (hm.trans ?_)
    change key = Option.getD (Option.map _ (s.inserted ++ [(key, v)]).getLast?) 0
    rw [List.getLast?_concat]
    rfl
  · refine List.pairwise_append.mpr ⟨h.sorted, List.pairwise_singleton _ _, fun x hx y hy => ?_⟩
    obtain rfl := List.mem_singleton.mp hy
    exact hlt x hx
  · intro k hk
    obtain ⟨e, he, hek⟩ := h.popped k hk
    exact ⟨e, List.mem_append_left _ he, hek⟩

theorem popFront (h : Sound n s) (hs : s.next .popFront = .ok s') : Sound n s' := by
  unfold next at hs
  dsimp only at hs
  split at hs
  · cases hs
  · next e he =>
      cases hs
      have hholds := h.holds
      cases hc : s.contents with
      | nil =>
          rw [hc] at hholds
          rw [VectorTailMap.first?, hholds.head] at he
          cases he
      | cons x l =>
          rw [hc] at hholds
          obtain rfl := Option.some.inj (he.symm.trans hholds.first?)
          have hcontents : l = Logged.contents { s with
              map := s.map.popFront
              popped := s.popped ++ [x.1] } := by
            have hkept : ∀ e : Nat × V, Logged.Kept { s with
                  map := s.map.popFront
                  popped := s.popped ++ [x.1] } e ↔ e.1 ≠ x.1 ∧ s.Kept e := fun e => by
              rw [Kept, Kept, Holds.tail_popFront, List.mem_append, List.mem_singleton, not_or]
              exact ⟨fun h => ⟨h.2.2, h.1, h.2.1⟩, fun h => ⟨h.2.1, h.2.2, h.1⟩⟩
            have hne := (List.pairwise_cons.mp hholds.inLap.sorted).1
            have hl : (x :: l).filter (fun e => decide (e.1 ≠ x.1)) = l := by
              rw [List.filter_cons_of_neg (by simp), List.filter_eq_self]
              exact fun e he => decide_eq_true (Nat.ne_of_gt (hne e he))
            rw [← hl, ← hc, Logged.contents, Logged.contents, List.filter_filter]
            refine List.filter_congr fun e _ => ?_
            rw [← Bool.decide_and, decide_eq_decide]
            exact (hkept e).symm
          refine ⟨(Holds.tail_popFront _).trans h.tail, hcontents ▸ hholds.popFront,
            (Holds.min_popFront _).trans h.min, h.sorted, fun k hk => ?_⟩
          rcases List.mem_append.mp hk with hk | hk
          · exact h.popped k hk
          · rw [List.mem_singleton.mp hk]
            exact ⟨x, mem_inserted (s := s) (hc ▸ List.mem_cons_self), rfl⟩

theorem clear (h : Sound n s) (hn : 0 < n) (hs : s.next .clear = .ok s') : Sound n s' := by
  cases hs
  obtain ⟨hall, htail⟩ := h.holds.popAll (h.holds.inLap.length_le (h.tail.symm ▸ hn))
  exact ⟨htail.trans h.tail, { hall with }, rfl, .nil, nofun⟩

end Sound

/-- In every run of increasing keys that do not wrap. -/
theorem sound_of_reachable (hn : 0 < n)
    (h : Reachable (Init n) Step (fun s o => s.Increasing o ∧ s.NoWrap o) s) : Sound n s := by
  refine h.induct (P := Sound n) ?_ ?_
  · rintro s rfl
    exact .start n
  · rintro s o s' - h ⟨hi, hw⟩ hs
    cases o with
    | tryEmplace key v => exact h.tryEmplace hn hi hw hs
    | popFront => exact h.popFront hs
    | clear => exact h.clear hn hs

/-- **What a tail map contains.**  The entries inserted since the last `clear` that are above the
largest key minus the tail and were not popped: it visits them in order and ends, finds them and
no other, counts them, and tells the last; and a key below the largest one changes nothing. -/
theorem contents_of_reachable (hn : 0 < n)
    (h : Reachable (Init n) Step (fun s o => s.Increasing o ∧ s.NoWrap o) s) :
    s.map.entries = some s.contents ∧ s.contents.Pairwise (fun e e' => e.1 < e'.1) ∧
      (∀ key v, s.map.find? key = some v ↔ (key, v) ∈ s.contents) ∧
      s.map.size = some s.contents.length ∧ (s.map.empty = true ↔ s.contents = []) ∧
      s.map.rbegin = s.contents.getLast? ∧
      ∀ m ∈ s.largest, ∀ key < m, ∀ v, s.map.tryEmplace key v =
        if (s.map.find? key).isSome then .ok (s.map, false)
        else .error "Tried to emplace a past element." := by
  have h := sound_of_reachable hn h
  have hentries := h.holds.entries (h.tail.symm ▸ hn)
  refine ⟨hentries, h.holds.inLap.sorted, fun key v => h.holds.find?_eq_some,
    congrArg (Option.map _) hentries, h.holds.empty_iff, h.holds.rbegin, fun m hm key hlt v => ?_⟩
  have hmin : key < s.map.min := by
    rw [h.min, Option.mem_def.mp hm]
    exact hlt
  rw [tryEmplace, if_pos hmin]
  cases s.map.find? key <;> rfl

/-- The last two keys of 64 bits, and a tail of two: the first one is dropped. -/
theorem contents_dropped : ¬ ∀ (n : Nat) (s : Logged Nat), 0 < n →
    Reachable (Init n) Step (fun s o => s.Increasing o) s → s.map.entries = some s.contents := by
  intro h
  obtain ⟨s, hs, hsee⟩ : ∃ s : Logged Nat, Reachable (Init 2) Step (fun s o => s.Increasing o) s ∧
      (s.map.entries != some s.contents) = true :=
    exists_reachable _ rfl [.tryEmplace (2 ^ 64 - 2) 7, .tryEmplace (2 ^ 64 - 1) 8]
      (by decide +kernel)
  exact bne_iff_ne.mp hsee (h 2 s (by decide) hs)

/-- A tail of four: the keys 1, 3, 4 and 6, of which 1 is left behind and 3 is popped. -/
theorem contents_two : ∃ s : Logged Nat, s.contents = [(4, 9), (6, 10)] ∧
    s.map.entries = some s.contents ∧ s.contents.Pairwise (fun e e' => e.1 < e'.1) ∧
      (∀ key v, s.map.find? key = some v ↔ (key, v) ∈ s.contents) ∧
      s.map.size = some s.contents.length ∧ (s.map.empty = true ↔ s.contents = []) ∧
      s.map.rbegin = s.contents.getLast? ∧
      ∀ m ∈ s.largest, ∀ key < m, ∀ v, s.map.tryEmplace key v =
        if (s.map.find? key).isSome then .ok (s.map, false)
        else .error "Tried to emplace a past element." := by
  obtain ⟨s, hs, hsee⟩ : ∃ s : Logged Nat,
      Reachable (Init 4) Step (fun s o => s.Increasing o ∧ s.NoWrap o) s ∧
        (s.contents == [(4, 9), (6, 10)]) = true :=
    exists_reachable _ rfl [.tryEmplace 1 7, .tryEmplace 3 8, .tryEmplace 4 9, .tryEmplace 6 10,
      .popFront] (by decide +kernel)
  exact ⟨s, beq_iff_eq.mp hsee, contents_of_reachable (by decide) hs⟩

end Logged

end VectorTailMap

end Ubft

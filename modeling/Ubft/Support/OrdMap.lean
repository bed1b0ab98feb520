import Mathlib

/-!
# Support — OrdMap

Finite maps over a linear order, as the list of their entries in increasing key order.  The
order is a field, so a map is sorted wherever it comes from, and a key has one entry.

Everything is read through `find?`: `mem_entries_iff` says that the entries are what `find?`
finds, and each operation has one `find?` lemma.
-/

namespace Ubft

universe u v

/-- A finite map, its entries in strictly increasing key order. -/
structure OrdMap (K : Type u) [LinearOrder K] (V : Type v) where
  entries : List (K × V)
  sorted : entries.Pairwise (fun a b => a.1 < b.1)

namespace OrdMap

variable {K : Type u} [LinearOrder K] {V W : Type v}

/-- The map without entries. -/
def empty : OrdMap K V := ⟨[], .nil⟩

/-- The value at `k`. -/
def find? (m : OrdMap K V) (k : K) : Option V :=
  (m.entries.find? (fun e => e.1 = k)).map Prod.snd

/-- `m` with `k ↦ v`, whatever `m` held at `k`. -/
def insert (m : OrdMap K V) (k : K) (v : V) : OrdMap K V where
  entries := m.entries.filter (fun e => e.1 < k) ++ (k, v) :: m.entries.filter (fun e => k < e.1)
  sorted := by
    rw [List.pairwise_append, List.pairwise_cons]
    refine ⟨m.sorted.filter _, ⟨fun b hb => ?_, m.sorted.filter _⟩, fun a ha b hb => ?_⟩
    · exact of_decide_eq_true (List.mem_filter.mp hb).2
    · have hak : a.1 < k := of_decide_eq_true (List.mem_filter.mp ha).2
      rcases List.mem_cons.mp hb with rfl | hb
      · exact hak
      · exact hak.trans (of_decide_eq_true (List.mem_filter.mp hb).2)

/-- The entries whose key passes `p`. -/
def filterKeys (m : OrdMap K V) (p : K → Bool) : OrdMap K V where
  entries := m.entries.filter (fun e => p e.1)
  sorted := m.sorted.filter _

/-- `m` without `k`. -/
def erase (m : OrdMap K V) (k : K) : OrdMap K V := m.filterKeys (fun k' => k' ≠ k)

/-- The front entries are popped as long as their key passes `p`. -/
def popWhile (m : OrdMap K V) (p : K → Bool) : OrdMap K V where
  entries := m.entries.dropWhile (fun e => p e.1)
  sorted := m.sorted.sublist (List.dropWhile_sublist _)

/-- `m` without its front entry. -/
def popFront (m : OrdMap K V) : OrdMap K V where
  entries := m.entries.drop 1
  sorted := m.sorted.drop

/-- `m` with the value at `k`, if there is one, replaced by its image. -/
def modify (m : OrdMap K V) (k : K) (f : V → V) : OrdMap K V where
  entries := m.entries.map (fun e => if e.1 = k then (e.1, f e.2) else e)
  sorted := by
    refine List.pairwise_map.mpr (m.sorted.imp fun {a b} h => ?_)
    split <;> split <;> exact h

/-- `m` with every value replaced by its image. -/
def map (m : OrdMap K V) (f : V → W) : OrdMap K W where
  entries := m.entries.map fun e => (e.1, f e.2)
  sorted := List.pairwise_map.mpr m.sorted

/-- The front entry. -/
def first? (m : OrdMap K V) : Option (K × V) := m.entries.head?

/-- The back entry. -/
def last? (m : OrdMap K V) : Option (K × V) := m.entries.getLast?

/-- Number of entries. -/
def size (m : OrdMap K V) : Nat := m.entries.length

/-! ### What `find?` finds -/

theorem key_unique {m : OrdMap K V} {k : K} {v w : V} (hv : (k, v) ∈ m.entries)
    (hw : (k, w) ∈ m.entries) : v = w := by
  by_contra hne
  have hp : m.entries.Pairwise (fun a b => a.1 ≠ b.1) := m.sorted.imp ne_of_lt
  have : Std.Symm (fun a b : K × V => a.1 ≠ b.1) := ⟨fun _ _ h => h.symm⟩
  exact hp.forall hv hw (fun h => hne (congrArg Prod.snd h)) rfl

/-- The entries are what is found. -/
theorem mem_entries_iff {m : OrdMap K V} {k : K} {v : V} :
    (k, v) ∈ m.entries ↔ m.find? k = some v := by
  constructor
  · intro h
    have hs : (m.entries.find? (fun e => e.1 = k)).isSome := by
      rw [List.find?_isSome]; exact ⟨(k, v), h, by simp⟩
    obtain ⟨⟨k', w⟩, he⟩ := Option.isSome_iff_exists.mp hs
    obtain rfl : k' = k := by simpa using List.find?_some he
    rw [find?, he, Option.map_some, key_unique (List.mem_of_find?_eq_some he) h]
  · intro h
    obtain ⟨⟨k', w⟩, he, rfl⟩ := Option.map_eq_some_iff.mp h
    obtain rfl : k' = k := by simpa using List.find?_some he
    exact List.mem_of_find?_eq_some he

theorem mem_entries {m : OrdMap K V} {e : K × V} : e ∈ m.entries ↔ m.find? e.1 = some e.2 :=
  mem_entries_iff

theorem find?_insert (m : OrdMap K V) (k k' : K) (v : V) :
    (m.insert k v).find? k' = if k' = k then some v else m.find? k' := by
  refine Option.ext fun w => ?_
  rw [← mem_entries_iff]
  simp only [insert, List.mem_append, List.mem_cons, List.mem_filter, Prod.mk.injEq,
    decide_eq_true_eq]
  by_cases h : k' = k
  · subst h; simp [eq_comm]
  · rw [if_neg h, ← mem_entries_iff]
    rcases lt_or_gt_of_ne h with hlt | hgt
    · simp [h, hlt, hlt.not_gt]
    · simp [h, hgt, hgt.not_gt]

@[simp] theorem find?_insert_self (m : OrdMap K V) (k : K) (v : V) :
    (m.insert k v).find? k = some v := by
  rw [find?_insert, if_pos rfl]

theorem find?_insert_of_ne (m : OrdMap K V) {k k' : K} (v : V) (h : k' ≠ k) :
    (m.insert k v).find? k' = m.find? k' := by
  rw [find?_insert, if_neg h]

/-- A key above the others goes last. -/
theorem insert_last {m : OrdMap K V} {k : K} {v : V} (h : ∀ e ∈ m.entries, e.1 < k) :
    (m.insert k v).entries = m.entries ++ [(k, v)] := by
  have hlow : m.entries.filter (fun e => e.1 < k) = m.entries :=
    List.filter_eq_self.mpr fun e he => decide_eq_true (h e he)
  have hhigh : m.entries.filter (fun e => k < e.1) = [] :=
    List.filter_eq_nil_iff.mpr fun e he => by
      rw [decide_eq_true_eq]
      exact (h e he).not_gt
  change _ ++ _ :: _ = _
  rw [hlow, hhigh]

theorem find?_filterKeys (m : OrdMap K V) (p : K → Bool) (k : K) :
    (m.filterKeys p).find? k = if p k then m.find? k else none := by
  refine Option.ext fun w => ?_
  rw [← mem_entries_iff]
  simp only [filterKeys, List.mem_filter, mem_entries_iff]
  split <;> simp_all

theorem find?_erase (m : OrdMap K V) (k k' : K) :
    (m.erase k).find? k' = if k' = k then none else m.find? k' := by
  rw [erase, find?_filterKeys]
  by_cases h : k' = k <;> simp [h]

/-- **What is left** by popping: the entries from one on whose key does not pass. -/
theorem mem_popWhile {m : OrdMap K V} {p : K → Bool} {e : K × V} :
    e ∈ (m.popWhile p).entries ↔ e ∈ m.entries ∧ ∃ f ∈ m.entries, f.1 ≤ e.1 ∧ p f.1 = false := by
  have key : ∀ l : List (K × V), l.Pairwise (fun a b => a.1 < b.1) →
      (e ∈ l.dropWhile (fun e => p e.1) ↔ e ∈ l ∧ ∃ f ∈ l, f.1 ≤ e.1 ∧ p f.1 = false) := by
    intro l hl
    induction l with
    | nil => simp
    | cons a l ih =>
        obtain ⟨hlt, hl⟩ := List.pairwise_cons.mp hl
        cases ha : p a.1 with
        | true =>
            rw [List.dropWhile_cons_of_pos (by exact ha), ih hl]
            constructor
            · rintro ⟨he, f, hf, hstop⟩
              exact ⟨List.mem_cons_of_mem a he, f, List.mem_cons_of_mem a hf, hstop⟩
            · rintro ⟨he, f, hf, hle, hp⟩
              rcases List.mem_cons.mp hf with rfl | hf'
              · rw [ha] at hp
                cases hp
              · rcases List.mem_cons.mp he with rfl | he
                · exact absurd hle (hlt f hf').not_ge
                · exact ⟨he, f, hf', hle, hp⟩
        | false =>
            rw [List.dropWhile_cons_of_neg (by simp [ha])]
            refine ⟨fun he => ⟨he, a, List.mem_cons_self, ?_, ha⟩, And.left⟩
            rcases List.mem_cons.mp he with rfl | he
            · exact le_rfl
            · exact (hlt e he).le
  exact key m.entries m.sorted

/-- The value at `k` is left if there is a key not above `k` that does not pass. -/
theorem find?_popWhile_eq_some {m : OrdMap K V} {p : K → Bool} {k : K} {v : V} :
    (m.popWhile p).find? k = some v ↔
      m.find? k = some v ∧ ∃ f ≤ k, (m.find? f).isSome ∧ p f = false := by
  rw [← mem_entries_iff, mem_popWhile, mem_entries_iff]
  refine and_congr_right fun _ => ⟨?_, ?_⟩
  · rintro ⟨f, hf, hle, hp⟩
    exact ⟨f.1, hle, Option.isSome_iff_exists.mpr ⟨f.2, mem_entries.mp hf⟩, hp⟩
  · rintro ⟨f, hle, hf, hp⟩
    obtain ⟨w, hw⟩ := Option.isSome_iff_exists.mp hf
    exact ⟨(f, w), mem_entries_iff.mpr hw, hle, hp⟩

/-- Popping the front as long as `p` holds, where `p` holds of a lower set of keys, keeps the
entries where it does not. -/
theorem find?_popWhile (m : OrdMap K V) {p : K → Bool}
    (hp : ∀ a b, a < b → p b = true → p a = true) (k : K) :
    (m.popWhile p).find? k = if p k then none else m.find? k := by
  refine Option.ext fun w => ?_
  rw [find?_popWhile_eq_some]
  cases hk : p k with
  | true =>
      refine ⟨fun ⟨_, f, hle, _, hf⟩ => ?_, fun h => nomatch h⟩
      rcases hle.lt_or_eq with hlt | rfl
      · exact nomatch hf.symm.trans (hp f k hlt hk)
      · exact nomatch hf.symm.trans hk
  | false =>
      exact ⟨And.left, fun h => ⟨h, k, le_rfl, Option.isSome_iff_exists.mpr ⟨w, h⟩, hk⟩⟩

theorem find?_modify (m : OrdMap K V) (k k' : K) (f : V → V) :
    (m.modify k f).find? k' = if k' = k then (m.find? k).map f else m.find? k' := by
  refine Option.ext fun w => ?_
  rw [← mem_entries_iff]
  simp only [modify, List.mem_map]
  constructor
  · rintro ⟨⟨a, v⟩, he, h⟩
    rw [mem_entries_iff] at he
    by_cases ha : a = k
    · subst ha
      rw [if_pos rfl] at h
      obtain ⟨rfl, rfl⟩ := Prod.mk.inj h
      rw [if_pos rfl, he, Option.map_some]
    · rw [if_neg ha] at h
      obtain ⟨rfl, rfl⟩ := Prod.mk.inj h
      rw [if_neg ha, he]
  · intro h
    by_cases hk : k' = k
    · subst hk
      rw [if_pos rfl] at h
      obtain ⟨v, hv, rfl⟩ := Option.map_eq_some_iff.mp h
      exact ⟨(k', v), mem_entries_iff.mpr hv, by rw [if_pos rfl]⟩
    · rw [if_neg hk] at h
      exact ⟨(k', w), mem_entries_iff.mpr h, by rw [if_neg hk]⟩

/-! ### The front -/

theorem find?_of_popFront {m : OrdMap K V} {k : K} {v : V} (h : m.popFront.find? k = some v) :
    m.find? k = some v :=
  mem_entries_iff.mp (List.mem_of_mem_drop (mem_entries_iff.mpr h))

/-- Popping the front keeps an entry that has another one before it. -/
theorem find?_popFront {m : OrdMap K V} {k k' : K} {v v' : V} (h : m.find? k = some v)
    (h' : m.find? k' = some v') (hlt : k' < k) : m.popFront.find? k = some v := by
  rw [← mem_entries_iff] at h h' ⊢
  have hs := m.sorted
  change (k, v) ∈ m.entries.drop 1
  cases he : m.entries with
  | nil => rw [he] at h; cases h
  | cons e l =>
      rw [he] at h h' hs
      rcases List.mem_cons.mp h with rfl | h
      · rcases List.mem_cons.mp h' with h' | h'
        · cases h'; exact absurd hlt (lt_irrefl _)
        · exact absurd hlt ((List.pairwise_cons.mp hs).1 _ h').not_gt
      · exact h

theorem find?_of_first? {m : OrdMap K V} {e : K × V} (h : m.first? = some e) :
    m.find? e.1 = some e.2 :=
  mem_entries.mp (List.mem_of_mem_head? h)

/-- The first key is the lowest. -/
theorem first?_le {m : OrdMap K V} {e : K × V} (h : m.first? = some e) {k : K} {v : V}
    (hk : m.find? k = some v) : e.1 ≤ k := by
  have hm := mem_entries_iff.mpr hk
  obtain ⟨l, hl⟩ : ∃ l, m.entries = e :: l := by
    cases he : m.entries with
    | nil => rw [first?, he] at h; cases h
    | cons a l => rw [first?, he] at h; cases h; exact ⟨l, rfl⟩
  rw [hl] at hm
  rcases List.mem_cons.mp hm with h' | h'
  · exact (congrArg Prod.fst h').ge
  · have := m.sorted
    rw [hl, List.pairwise_cons] at this
    exact (this.1 _ h').le

/-- What is popped is the first entry. -/
theorem find?_popFront_of_first? {m : OrdMap K V} {e : K × V} (h : m.first? = some e) (k : K) :
    m.popFront.find? k = if k = e.1 then none else m.find? k := by
  split
  · next hk =>
      refine Option.eq_none_iff_forall_ne_some.mpr fun v hv => ?_
      have hm := mem_entries_iff.mpr hv
      have hs := m.sorted
      obtain ⟨l, hl⟩ := List.head?_eq_some_iff.mp (show m.entries.head? = some e from h)
      change (k, v) ∈ m.entries.drop 1 at hm
      rw [hl] at hm hs
      exact absurd ((List.pairwise_cons.mp hs).1 _ hm) (hk ▸ lt_irrefl _)
  · next hk =>
      cases hf : m.find? k with
      | none =>
          refine Option.eq_none_iff_forall_ne_some.mpr fun v hv => ?_
          rw [find?_of_popFront hv] at hf
          cases hf
      | some v =>
          exact find?_popFront hf (find?_of_first? h) (lt_of_le_of_ne (first?_le h hf) (Ne.symm hk))

/-- The last key is the highest. -/
theorem le_last? {m : OrdMap K V} {e : K × V} (h : m.last? = some e) {k : K} {v : V}
    (hk : m.find? k = some v) : k ≤ e.1 := by
  have hm := mem_entries_iff.mpr hk
  obtain ⟨l, hl⟩ := List.getLast?_eq_some_iff.mp h
  have hs := m.sorted
  rw [hl] at hm hs
  rcases List.mem_append.mp hm with h' | h'
  · exact ((List.pairwise_append.mp hs).2.2 _ h' e List.mem_cons_self).le
  · exact (congrArg Prod.fst (List.mem_singleton.mp h')).le

theorem last?_isSome {m : OrdMap K V} {k : K} {v : V} (h : m.find? k = some v) :
    ∃ e, m.last? = some e := by
  have hm := mem_entries_iff.mpr h
  exact ⟨_, List.getLast?_eq_some_getLast (List.ne_nil_of_mem hm)⟩

/-- There are at most as many entries with increasing keys as the range of the keys is long. -/
theorem length_le_of_pairwise {l : List (Nat × V)} {a b : Nat}
    (hs : l.Pairwise fun e e' => e.1 < e'.1) (hb : ∀ e ∈ l, a ≤ e.1 ∧ e.1 < b) :
    l.length ≤ b - a := by
  induction l generalizing a with
  | nil => exact Nat.zero_le _
  | cons e l ih =>
      obtain ⟨hlt, hs⟩ := List.pairwise_cons.mp hs
      have he := hb e List.mem_cons_self
      have hl := ih (a := a + 1) hs fun e' h' =>
        ⟨Nat.succ_le_of_lt (Nat.lt_of_le_of_lt he.1 (hlt e' h')), (hb e' (List.mem_cons_of_mem _ h')).2⟩
      rw [List.length_cons]
      omega

/-- Keys in an interval are no more than it is long. -/
theorem size_le {m : OrdMap Nat V} {a b : Nat} (h : ∀ k v, m.find? k = some v → a ≤ k ∧ k < b) :
    m.size ≤ b - a :=
  length_le_of_pairwise m.sorted fun e he => h e.1 e.2 (mem_entries.mp he)

/-! ### Maps over their keys -/

theorem nodup_keys (m : OrdMap K V) : (m.entries.map Prod.fst).Nodup :=
  List.pairwise_map.mpr (m.sorted.imp ne_of_lt)

/-- A map that holds one entry more. -/
theorem perm_cons {m m' : OrdMap K V} {k : K} {v : V} (h : m.find? k = none)
    (h' : ∀ k', m'.find? k' = if k' = k then some v else m.find? k') :
    m'.entries.Perm ((k, v) :: m.entries) := by
  have hno : (k, v) ∉ m.entries := fun hmem => nomatch h.symm.trans (mem_entries.mp hmem)
  refine (List.perm_ext_iff_of_nodup m'.nodup_keys.of_map
    (List.nodup_cons.mpr ⟨hno, m.nodup_keys.of_map⟩)).mpr fun e => ?_
  rw [mem_entries, h', List.mem_cons, mem_entries]
  split
  · next heq =>
      rw [heq, h]
      refine ⟨fun he => .inl (Prod.ext heq (Option.some.inj he).symm), fun he => ?_⟩
      rcases he with rfl | he
      · rfl
      · cases he
  · next hne =>
      refine (or_iff_right ?_).symm
      rintro rfl
      exact hne rfl

theorem perm_insert {m : OrdMap K V} {k : K} (h : m.find? k = none) (v : V) :
    (m.insert k v).entries.Perm ((k, v) :: m.entries) :=
  perm_cons h fun k' => find?_insert m k k' v

theorem perm_erase {m : OrdMap K V} {k : K} {v : V} (h : m.find? k = some v) :
    m.entries.Perm ((k, v) :: (m.erase k).entries) := by
  refine perm_cons ((find?_erase m k k).trans (if_pos rfl)) fun k' => ?_
  rw [find?_erase]
  split
  · next heq => rw [heq, h]
  · rfl

/-- A map is what `find?` finds. -/
theorem ext_find? {m m' : OrdMap K V} (h : ∀ k, m.find? k = m'.find? k) : m = m' := by
  have hp : m.entries.Perm m'.entries := by
    refine (List.perm_ext_iff_of_nodup m.nodup_keys.of_map m'.nodup_keys.of_map).mpr fun e => ?_
    rw [mem_entries, mem_entries, h]
  have he : m.entries = m'.entries :=
    hp.eq_of_pairwise (fun _ _ _ _ hab hba => absurd hab hba.not_gt) m.sorted m'.sorted
  cases m
  cases m'
  cases he
  rfl

theorem find?_map (m : OrdMap K V) (f : V → W) (k : K) :
    (m.map f).find? k = (m.find? k).map f := by
  refine Option.ext fun w => ?_
  simp only [← mem_entries_iff, map, List.mem_map, Prod.mk.injEq, Prod.exists,
    Option.map_eq_some_iff]
  exact ⟨fun ⟨a, v, h, hk, hv⟩ => ⟨v, hk ▸ h, hv⟩, fun ⟨v, h, hv⟩ => ⟨k, v, h, rfl, hv⟩⟩

theorem map_insert (m : OrdMap K V) (f : V → W) (k : K) (v : V) :
    (m.insert k v).map f = (m.map f).insert k (f v) := by
  refine ext_find? fun k' => ?_
  rw [find?_map, find?_insert, find?_insert, find?_map]
  split <;> rfl

theorem map_popFront (m : OrdMap K V) (f : V → W) : m.popFront.map f = (m.map f).popFront := by
  simp only [map, popFront, List.map_drop]

/-- Popping only tests the keys that there are. -/
theorem popWhile_congr {m : OrdMap K V} {p q : K → Bool} (h : ∀ e ∈ m.entries, p e.1 = q e.1) :
    m.popWhile p = m.popWhile q := by
  have hl : ∀ l : List (K × V), (∀ e ∈ l, p e.1 = q e.1) →
      l.dropWhile (fun e => p e.1) = l.dropWhile fun e => q e.1 := by
    intro l hl
    induction l with
    | nil => rfl
    | cons e l ih =>
        rw [List.dropWhile_cons, List.dropWhile_cons, hl e List.mem_cons_self,
          ih fun e' he' => hl e' (List.mem_cons_of_mem e he')]
  simp only [popWhile, hl m.entries h]

theorem map_popWhile (m : OrdMap K V) (f : V → W) (p : K → Bool) :
    (m.popWhile p).map f = (m.map f).popWhile p := by
  simp only [map, popWhile, List.dropWhile_map]
  rfl

theorem map_modify (m : OrdMap K V) (f : V → W) {k : K} {g : V → V} (h : ∀ v, f (g v) = f v) :
    (m.modify k g).map f = m.map f := by
  refine ext_find? fun k' => ?_
  rw [find?_map, find?_map, find?_modify]
  split
  · next hk =>
      subst hk
      rw [Option.map_map]
      exact congrArg (fun φ => (m.find? k').map φ) (funext h)
  · rfl

@[simp] theorem size_map (m : OrdMap K V) (f : V → W) : (m.map f).size = m.size :=
  List.length_map ..

/-- A map that finds nothing but keys of another one is not larger. -/
theorem size_le_of_find? {m : OrdMap K V} {m' : OrdMap K W}
    (h : ∀ k w, m'.find? k = some w → ∃ v, m.find? k = some v) : m'.size ≤ m.size := by
  have hsub : m'.entries.map Prod.fst ⊆ m.entries.map Prod.fst := by
    intro k hk
    obtain ⟨e, he, rfl⟩ := List.mem_map.mp hk
    obtain ⟨v, hv⟩ := h e.1 e.2 (mem_entries.mp he)
    exact List.mem_map.mpr ⟨(e.1, v), mem_entries_iff.mpr hv, rfl⟩
  have hl := (List.subperm_of_subset m'.nodup_keys hsub).length_le
  rwa [List.length_map, List.length_map] at hl

theorem size_popFront (m : OrdMap K V) : m.popFront.size = m.size - 1 := List.length_drop ..

end OrdMap

end Ubft

import Ubft.Support.Mem

/-!
# Support — FreeList

Lists threaded through the memory of their own cells: the word at a cell is the address of the next
one, and the last one holds the null address.  `Chain` is such a list; it depends on the words of its
cells alone (`Chain.congr`), and the cells of an array are put in one by linking each to the next
(`chain_link`).
-/

namespace Ubft.FreeList

open Mem (load store)

variable {m m' : Nat → UInt8} {a c head n v : Nat} {bs : Bytes} {cs : List Nat} {slot : Nat → Nat}

/-- The word of eight bytes at `a`. -/
def word (m : Nat → UInt8) (a : Nat) : Nat := ofLe (load m a 8)

/-- The pointer `v` is written at `a`. -/
def setWord (m : Nat → UInt8) (a v : Nat) : Nat → UInt8 := store m a (le 8 v)

theorem word_store_of_apart (m : Nat → UInt8) (h : c + 8 ≤ a ∨ a + bs.length ≤ c) :
    word (store m a bs) c = word m c :=
  congrArg ofLe (Mem.load_store_of_apart m h)

theorem word_setWord_of_apart (m : Nat → UInt8) (h : c + 8 ≤ a ∨ a + 8 ≤ c) :
    word (setWord m a v) c = word m c :=
  word_store_of_apart m (by rwa [length_le])

theorem word_setWord_self (m : Nat → UInt8) (a : Nat) (hv : v < 2 ^ 64) :
    word (setWord m a v) a = v := by
  have hload := Mem.load_store_self m a (le 8 v)
  rw [length_le] at hload
  rw [word, setWord, hload]
  exact ofLe_le_of_lt hv

/-- The cells of the list that starts at an address. -/
def Chain (m : Nat → UInt8) : Nat → List Nat → Prop
  | head, [] => head = 0
  | head, c :: cs => head = c ∧ c ≠ 0 ∧ Chain m (word m c) cs

namespace Chain

/-- A list depends on its own links alone. -/
theorem congr (h : Chain m head cs) (hw : ∀ c ∈ cs, word m' c = word m c) : Chain m' head cs := by
  induction cs generalizing head with
  | nil => exact h
  | cons c cs ih =>
      refine ⟨h.1, h.2.1, ?_⟩
      rw [hw c List.mem_cons_self]
      exact ih h.2.2 fun d hd => hw d (List.mem_cons_of_mem c hd)

theorem head_eq_zero_iff (h : Chain m head cs) : head = 0 ↔ cs = [] := by
  cases cs with
  | nil => exact iff_of_true h rfl
  | cons c cs => exact iff_of_false (h.1 ▸ h.2.1) nofun

theorem head_lt (h : Chain m head cs) (hlt : ∀ c ∈ cs, c < n) (hn : 0 < n) : head < n := by
  cases cs with
  | nil => exact h ▸ hn
  | cons c cs => exact h.1 ▸ hlt c List.mem_cons_self

/-- The first cell and the rest. -/
theorem pop (h : Chain m head cs) (hne : head ≠ 0) :
    ∃ cs', cs = head :: cs' ∧ Chain m (word m head) cs' := by
  cases cs with
  | nil => exact absurd h hne
  | cons c cs =>
      obtain ⟨rfl, -, h⟩ := h
      exact ⟨cs, rfl, h⟩

theorem push (h : Chain m head cs) (hlt : head < 2 ^ 64) (hc : c ≠ 0)
    (hapart : ∀ d ∈ cs, d + 8 ≤ c ∨ c + 8 ≤ d) : Chain (setWord m c head) c (c :: cs) := by
  refine ⟨rfl, hc, ?_⟩
  rw [word_setWord_self m c hlt]
  exact h.congr fun d hd => word_setWord_of_apart m (hapart d hd)

/-- An array whose cells hold the address of the next one. -/
theorem of_words {i k : Nat} (hne : ∀ j < k, slot (i + j) ≠ 0)
    (hnext : ∀ j, j + 1 < k → word m (slot (i + j)) = slot (i + (j + 1)))
    (hlast : word m (slot (i + (k - 1))) = 0) (hk : 0 < k) :
    Chain m (slot i) ((List.range' i k).map slot) := by
  induction k generalizing i with
  | zero => exact absurd hk (Nat.lt_irrefl 0)
  | succ k ih =>
      rw [List.range'_succ, List.map_cons]
      refine ⟨rfl, hne 0 hk, ?_⟩
      cases k with
      | zero => exact hlast
      | succ k =>
          rw [show word m (slot i) = slot (i + 1) from hnext 0 (Nat.succ_lt_succ k.succ_pos)]
          refine ih (fun j hj => ?_) (fun j hj => ?_) ?_ k.succ_pos
          · rw [Nat.succ_add_eq_add_succ]
            exact hne (j + 1) (Nat.succ_lt_succ hj)
          · rw [Nat.succ_add_eq_add_succ, Nat.succ_add_eq_add_succ]
            exact hnext (j + 1) (Nat.succ_lt_succ hj)
          · rw [Nat.succ_add_eq_add_succ]
            exact hlast

end Chain

/-- What linking the first `k` cells of an array leaves in a cell. -/
theorem word_link {k : Nat} (hlt : ∀ i < n, slot i < 2 ^ 64)
    (hapart : ∀ i < n, ∀ j < n, i ≠ j → slot i + 8 ≤ slot j ∨ slot j + 8 ≤ slot i) (hk : k < n)
    {j : Nat} (hj : j < n) :
    word ((List.range k).foldl (fun m i => setWord m (slot i) (slot (i + 1))) m) (slot j) =
      if j < k then slot (j + 1) else word m (slot j) := by
  induction k with
  | zero => rfl
  | succ k ih =>
      have hk' := Nat.lt_of_succ_lt hk
      rw [List.range_succ, List.foldl_append, List.foldl_cons, List.foldl_nil]
      rcases Nat.lt_trichotomy j k with hjk | rfl | hkj
      · rw [word_setWord_of_apart _ (hapart j hj k hk' (Nat.ne_of_lt hjk)), ih hk', if_pos hjk,
          if_pos (Nat.lt_succ_of_lt hjk)]
      · rw [word_setWord_self _ _ (hlt _ hk), if_pos (Nat.lt_succ_self j)]
      · rw [word_setWord_of_apart _ (hapart j hj k hk' (Nat.ne_of_gt hkj)), ih hk',
          if_neg (Nat.not_lt.mpr hkj.le), if_neg (Nat.not_lt.mpr hkj)]

/-- **An array is linked** from the cell before the last one down to none. -/
theorem chain_link (slot : Nat → Nat) (hn : 0 < n) (hne : ∀ i < n, slot i ≠ 0) (hlt : ∀ i < n, slot i < 2 ^ 64)
    (hapart : ∀ i < n, ∀ j < n, i ≠ j → slot i + 8 ≤ slot j ∨ slot j + 8 ≤ slot i) :
    Chain ((List.range (n - 1)).foldl (fun m i => setWord m (slot i) (slot (i + 1)))
      (setWord m (slot (n - 1)) 0)) (slot 0) ((List.range n).map slot) := by
  have hpred := Nat.sub_lt hn Nat.one_pos
  rw [List.range_eq_range' (n := n)]
  refine Chain.of_words (i := 0) (fun j hj => ?_) (fun j hj => ?_) ?_ hn
  · rw [Nat.zero_add]
    exact hne j hj
  · rw [Nat.zero_add, Nat.zero_add, word_link hlt hapart hpred (Nat.lt_of_succ_lt hj),
      if_pos (by omega)]
  · rw [Nat.zero_add, word_link hlt hapart hpred hpred, if_neg (Nat.lt_irrefl _),
      word_setWord_self _ _ (Nat.two_pow_pos 64)]

end Ubft.FreeList

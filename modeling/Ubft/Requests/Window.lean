import Ubft.Requests.Client
import Ubft.Store.MapRuns

/-!
# Requests — the window of a client

A client's requests are kept in a tail map of `window` ids, and one is refused from `accept_below`
on.  The bound is moved by each request accepted, so that a client which sends its requests in a row
pushes the first ones out before any of them is decided.  The last ids of 64 bits are pushed out
sooner still, as `id + window` wraps.

`kept_iff` says which additions keep what was accepted; with a window of 1 all do
(`kept_of_window_one`).
-/

namespace Ubft.Requests

open Server (Request)
open VectorTailMap (UpTo left)

/-- What is done with the requests of a client. -/
inductive Op where
  | addRequest (id : Nat) (request : Bytes)
  | decided (r : Request)
  deriving DecidableEq, Repr

/-- `accepted` are the requests for which `addRequest` returned true and since which no request of
their id or a higher one was decided, `nextId` is above all of the accepted ones: the history. -/
structure History where
  requests : SingleClientRequests
  accepted : List (Nat × Bytes) := []
  nextId : Nat := 0

namespace History

variable {h h' : History} {op : Op}

/-- No request, no decision. -/
def start (window maxRequestSize : Nat) (hs : maxRequestSize < 2 ^ 63) : History where
  requests := .start window maxRequestSize hs

/-- `none` when an exception is thrown. -/
def next (h : History) : Op → Option History
  | .addRequest id request =>
    match h.requests.addRequest id request with
    | (_, .error _) => none
    | (requests, .ok false) => some { h with requests }
    | (requests, .ok true) => some ⟨requests, (id, request) :: h.accepted, id + 1⟩
  | .decided r => some { h with
      requests := h.requests.decided r
      accepted := h.accepted.filter fun a => decide (r.id < a.1) }

/-- The ids increase, and have 64 bits. -/
def Increasing (h : History) : Op → Prop
  | .addRequest id _ => h.nextId ≤ id ∧ id < 2 ^ 64
  | .decided _ => True

instance (h : History) : DecidablePred h.Increasing
  | .addRequest _ _ => inferInstanceAs (Decidable (_ ∧ _))
  | .decided _ => inferInstanceAs (Decidable True)

/-- The history goes on when the client's identifiers increase. -/
def increasing (h : History) (op : Op) : Option History :=
  if h.Increasing op then h.next op else none

/-- What was accepted is valid. -/
def Kept (h : History) : Prop :=
  ∀ a ∈ h.accepted, ∀ r : Request, r.id = a.1 → r.size = a.2.length → r.payload = a.2 →
    h.requests.isValid r = true

/-- The request added is refused, or there are none to be kept, or it is less than a window above
them and the window of the first request still in it does not wrap. -/
def Spares (h : History) : Op → Prop
  | .addRequest id _ => (∃ bound ∈ h.requests.acceptBelow, bound ≤ id) ∨ h.accepted = [] ∨
      (∀ a ∈ h.accepted, id < a.1 + h.requests.window) ∧
        ∀ l ∈ h.requests.requests.entries, VectorTailMap.Holds.NoWrap h.requests.window l id
  | .decided _ => True

instance (h : History) : DecidablePred h.Spares
  | .addRequest _ _ => inferInstanceAs (Decidable (_ ∨ _ ∨ _ ∧ _))
  | .decided _ => inferInstanceAs (Decidable True)

/-- The map is in order, and holds no id above those accepted. -/
structure Inv (w : Nat) (h : History) : Prop where
  window : h.requests.window = w
  tail : h.requests.requests.tail = w
  upTo : ∃ l, UpTo h.requests.requests l
  min : h.requests.requests.min ≤ h.nextId
  keys : ∀ id buffer, h.requests.requests.find? id = some buffer → id < h.nextId
  accepted : ∀ a ∈ h.accepted, a.1 < h.nextId

theorem inv_start (w maxRequestSize : Nat) (hs : maxRequestSize < 2 ^ 63) :
    Inv w (start w maxRequestSize hs) :=
  ⟨rfl, rfl, ⟨[], ⟨trivial, nofun, rfl, rfl, .nil, .nil⟩, nofun⟩, Nat.le_refl 0, nofun, nofun⟩

/-- Whether a request is kept is whether it is found. -/
theorem kept_iff_find : h.Kept ↔ ∀ a ∈ h.accepted, h.requests.requests.find? a.1 = some a.2 := by
  refine forall_congr' fun a => forall_congr' fun _ => ⟨fun hv => ?_, ?_⟩
  · obtain ⟨buffer, hb, hp⟩ := (Option.any_eq_true ..).mp
      (hv ⟨0, a.1, a.2.length, a.2⟩ rfl rfl rfl)
    rw [hb, (of_decide_eq_true hp).2]
  · rintro hf ⟨_, id, size, payload⟩ rfl rfl rfl
    exact (Option.any_eq_true ..).mpr ⟨a.2, hf, decide_eq_true ⟨rfl, rfl⟩⟩

/-- A request that takes its place in the map, behind what it leaves there. -/
structure Added (w id : Nat) (request : Bytes) (h h' : History) : Prop where
  below : ¬ ∃ bound ∈ h.requests.acceptBelow, bound ≤ id
  accepted : h'.accepted = (id, request) :: h.accepted
  nextId : h'.nextId = id + 1
  window : h'.requests.window = w
  acceptBelow : h'.requests.acceptBelow = some ((id + w) % 2 ^ 64)
  tail : h'.requests.requests.tail = w
  min : h'.requests.requests.min = id
  upTo : ∀ l, UpTo h.requests.requests l →
    UpTo h'.requests.requests (left w id l ++ [(id, request)])

/-- **What a request added does**: it is refused, or it takes its place in the map. -/
theorem next_addRequest {w id : Nat} {request : Bytes} (hw : 0 < w) (hi : Inv w h)
    (hinc : h.nextId ≤ id) (hn : h.next (.addRequest id request) = some h') :
    ((∃ bound ∈ h.requests.acceptBelow, bound ≤ id) ∧ h' = h) ∨ Added w id request h h' := by
  have hno : h.requests.requests.find? id = none := by
    cases hf : h.requests.requests.find? id with
    | none => rfl
    | some buffer => exact absurd (hi.keys id buffer hf) (Nat.not_lt.mpr hinc)
  have hmin := hi.min.trans hinc
  unfold next at hn
  dsimp only at hn
  by_cases hb : ∃ bound ∈ h.requests.acceptBelow, bound ≤ id
  · rw [SingleClientRequests.addRequest_refused request hb] at hn
    cases hn
    exact .inl ⟨hb, rfl⟩
  · by_cases hs : request.length ≤ h.requests.maxRequestSize
    · obtain ⟨hok, hw', hbelow, hmap⟩ := SingleClientRequests.emplace_of_ok
        (s := h.requests.setAcceptBelow (id + h.requests.window)) hs
        (VectorTailMap.tryEmplace_of_le request hmin)
      rw [SingleClientRequests.addRequest_emplace hb hs] at hn
      split at hn
      · next he =>
          rw [he] at hok
          cases hok
      · next he =>
          rw [he] at hok
          cases hok
      · next requests he =>
          rw [he] at hw' hbelow hmap
          cases hn
          obtain ⟨htail, hmin'⟩ := VectorTailMap.Holds.tail_skip
            { h.requests.requests with min := id } id h.requests.requests.tail
          refine .inr ⟨hb, rfl, rfl, hw'.trans hi.window, ?_, ?_, ?_, fun l hl => ?_⟩
          · rw [← hi.window]
            exact hbelow
          · rw [hmap]
            exact (VectorTailMap.Holds.tail_emplaceBack ..).trans (htail.trans hi.tail)
          · rw [hmap]
            exact (VectorTailMap.Holds.min_emplaceBack ..).trans hmin'
          · rw [hmap, ← hi.tail]
            exact hl.insert (hi.tail ▸ hw) hmin hno request
    · rw [SingleClientRequests.addRequest_resize hb hs] at hn
      cases hn

/-- What is in the map after a request is added is it, or was there. -/
theorem Added.find {w id : Nat} {request : Bytes} (ha : Added w id request h h')
    {l : List (Nat × Bytes)} (hl : UpTo h.requests.requests l) {k : Nat} {buffer : Bytes} :
    h'.requests.requests.find? k = some buffer ↔
      (k, buffer) ∈ left w id l ∨ k = id ∧ buffer = request := by
  rw [(ha.upTo l hl).holds.find?_eq_some, List.mem_append, List.mem_singleton, Prod.mk.injEq]

/-- The invariant is kept. -/
theorem Inv.next {w : Nat} (hw : 0 < w) (hi : Inv w h) (hinc : h.Increasing op)
    (hn : h.next op = some h') : Inv w h' := by
  cases op with
  | addRequest id request =>
      obtain ⟨hinc, -⟩ := hinc
      rcases next_addRequest hw hi hinc hn with ⟨-, rfl⟩ | ha
      · exact hi
      · obtain ⟨l, hl⟩ := hi.upTo
        refine ⟨ha.window, ha.tail, ⟨_, ha.upTo l hl⟩, ha.min ▸ ha.nextId ▸ Nat.le_succ id,
          fun k buffer hk => ?_, fun a hm => ?_⟩
        · rw [ha.nextId]
          rcases (ha.find hl).mp hk with hk | ⟨rfl, -⟩
          · have hk := hl.holds.find?_eq_some.mpr ((VectorTailMap.mem_left
              hl.holds.inLap.sorted).mp hk).1
            exact Nat.lt_succ_of_lt ((hi.keys k buffer hk).trans_le hinc)
          · exact Nat.lt_succ_self _
        · rw [ha.accepted] at hm
          rw [ha.nextId]
          rcases List.mem_cons.mp hm with rfl | hm
          · exact Nat.lt_succ_self id
          · exact Nat.lt_succ_of_lt (Nat.lt_of_lt_of_le (hi.accepted a hm) hinc)
  | decided r =>
      cases hn
      exact ⟨hi.window, hi.tail, hi.upTo, hi.min, hi.keys,
        fun a hm => hi.accepted a (List.mem_of_mem_filter hm)⟩

/-- What is to be kept is left by a request if the window of the first one in it does not wrap, and
they are in it. -/
theorem left_iff {w id : Nat} {l as : List (Nat × Bytes)} (hl : UpTo h.requests.requests l)
    (hw : w < 2 ^ 64) (hid : id < 2 ^ 64) (hlt : ∀ e ∈ l, e.1 < id) (has : as ⊆ l) :
    as ⊆ left w id l ↔ as = [] ∨ (∀ a ∈ as, id < a.1 + w) ∧
      VectorTailMap.Holds.NoWrap w l id := by
  have hsorted := hl.holds.inLap.sorted
  constructor
  · intro hleft
    cases as with
    | nil => exact .inl rfl
    | cons a as =>
        exact .inr ⟨fun b hb => VectorTailMap.lt_add_of_mem_left hsorted (hleft hb),
          VectorTailMap.noWrap_of_mem_left hsorted hlt hid hw (hleft List.mem_cons_self)⟩
  · rintro (rfl | ⟨hnear, hnowrap⟩)
    · exact List.nil_subset _
    · intro a ha
      rw [VectorTailMap.left_eq_filter hsorted hnowrap]
      exact List.mem_filter.mpr ⟨has ha, decide_eq_true (hnear a ha)⟩

/-- **One step.**  What was accepted is kept when the step spares it, and then only. -/
theorem kept_next_iff {w : Nat} (hw : 0 < w) (hw' : w < 2 ^ 64) (hi : Inv w h) (hk : h.Kept)
    (hinc : h.Increasing op) (hn : h.next op = some h') : h'.Kept ↔ h.Spares op := by
  rw [kept_iff_find] at hk ⊢
  cases op with
  | addRequest id request =>
      obtain ⟨hinc, hid⟩ := hinc
      rcases next_addRequest hw hi hinc hn with ⟨hb, rfl⟩ | ha
      · exact ⟨fun _ => .inl hb, fun _ => hk⟩
      · obtain ⟨l, hl⟩ := hi.upTo
        have hmem : h.accepted ⊆ l := fun a hm => hl.holds.find?_eq_some.mp (hk a hm)
        have hlt : ∀ e ∈ l, e.1 < id := fun e he =>
          (hi.keys e.1 e.2 (hl.holds.find?_eq_some.mpr he)).trans_le hinc
        have hspares : h.Spares (.addRequest id request) ↔ h.accepted = [] ∨
            (∀ a ∈ h.accepted, id < a.1 + w) ∧ VectorTailMap.Holds.NoWrap w l id := by
          refine (or_iff_right ha.below).trans ?_
          rw [hi.window, hl.holds.entries (hi.tail ▸ hw)]
          simp only [Option.mem_def, Option.some.injEq, forall_eq']
        rw [hspares, ← left_iff hl hw' hid hlt hmem, ha.accepted, List.forall_mem_cons]
        have hnew : h'.requests.requests.find? id = some request :=
          (ha.find hl).mpr (.inr ⟨rfl, rfl⟩)
        refine (and_iff_right hnew).trans (forall_congr' fun a => forall_congr' fun hm => ?_)
        have hne : a.1 ≠ id := (hlt a (hmem hm)).ne
        exact (ha.find hl).trans (or_iff_left fun h => hne h.1)
  | decided r =>
      cases hn
      exact ⟨fun _ => trivial, fun _ a hm => hk a (List.mem_of_mem_filter hm)⟩

/-! ### Sequences -/

/-- Every request added is spared, or spares those accepted. -/
def Sparing : History → List Op → Prop
  | _, [] => True
  | h, op :: ops => h.Spares op ∧ match h.increasing op with
    | none => True
    | some h' => Sparing h' ops

instance decidableSparing : (h : History) → (ops : List Op) → Decidable (h.Sparing ops)
  | _, [] => inferInstanceAs (Decidable True)
  | h, op :: ops => by
    unfold Sparing
    split
    · infer_instance
    · next h' _ =>
        have := decidableSparing h' ops
        infer_instance

/-- What was accepted is kept all along. -/
def AllKept (h : History) (ops : List Op) : Prop :=
  ∀ (pre : List Op) (h' : History), pre <+: ops → runs increasing h pre = some h' → h'.Kept

/-- A step of increasing identifiers. -/
theorem increasing_cases (hn : h.increasing op = some h') :
    h.Increasing op ∧ h.next op = some h' := by
  unfold increasing at hn
  split at hn
  · next hinc => exact ⟨hinc, hn⟩
  · cases hn

theorem allKept_cons {h₁ : History} {ops : List Op} (hn : h.increasing op = some h₁) :
    h.AllKept (op :: ops) ↔ h.Kept ∧ h₁.AllKept ops := by
  constructor
  · intro ha
    refine ⟨ha [] h List.nil_prefix rfl, fun pre h' hp hr => ?_⟩
    refine ha (op :: pre) h' (List.cons_prefix_cons.mpr ⟨rfl, hp⟩) ?_
    rw [runs, hn]
    exact hr
  · rintro ⟨hk, ha⟩ pre h' hp hr
    cases pre with
    | nil =>
        cases hr
        exact hk
    | cons op' pre =>
        obtain ⟨rfl, hp'⟩ := List.cons_prefix_cons.mp hp
        rw [runs, hn] at hr
        exact ha pre h' hp' hr

/-- **By induction on the operations.** -/
theorem allKept_iff {w : Nat} {ops : List Op} (hw : 0 < w) (hw' : w < 2 ^ 64) (hi : Inv w h)
    (hk : h.Kept)
    (hr : (runs increasing h ops).isSome = true) : h.AllKept ops ↔ h.Sparing ops := by
  induction ops generalizing h with
  | nil =>
      refine ⟨fun _ => trivial, fun _ pre h' hp hr' => ?_⟩
      cases List.prefix_nil.mp hp
      cases hr'
      exact hk
  | cons op ops ih =>
      rw [runs] at hr
      cases hn : h.increasing op with
      | none =>
          rw [hn] at hr
          cases hr
      | some h₁ =>
          rw [hn] at hr
          obtain ⟨hinc, hnext⟩ := increasing_cases hn
          have hstep := kept_next_iff hw hw' hi hk hinc hnext
          have hsparing : h.Sparing (op :: ops) ↔ h.Spares op ∧ h₁.Sparing ops := by
            rw [Sparing, hn]
          rw [allKept_cons hn, hsparing]
          constructor
          · rintro ⟨-, ha⟩
            have hk₁ := ha [] h₁ List.nil_prefix rfl
            exact ⟨hstep.mp hk₁, (ih (hi.next hw hinc hnext) hk₁ hr).mp ha⟩
          · rintro ⟨hs, ha⟩
            exact ⟨hk, (ih (hi.next hw hinc hnext) (hstep.mpr hs) hr).mpr ha⟩

theorem kept_start (w maxRequestSize : Nat) (hs : maxRequestSize < 2 ^ 63) :
    (start w maxRequestSize hs).Kept := nofun

/-- **Accepted requests.**  In a sequence of increasing ids the requests accepted are kept until
they are decided, if and only if each request added is refused, finds none that is not decided, or
is less than a window above those, where the window of the first request in it does not wrap. -/
theorem kept_iff (w maxRequestSize : Nat) (hw : 1 ≤ w) (hw' : w < 2 ^ 64)
    (hs : maxRequestSize < 2 ^ 63) (ops : List Op)
    (hr : (runs increasing (start w maxRequestSize hs) ops).isSome = true) :
    (start w maxRequestSize hs).AllKept ops ↔ (start w maxRequestSize hs).Sparing ops :=
  allKept_iff hw hw' (inv_start w maxRequestSize hs) (kept_start w maxRequestSize hs) hr

/-- A client that waits for the first of its requests before it sends the third. -/
theorem kept_three : (start 2 8 (by decide)).AllKept
    [.addRequest 0 [7], .addRequest 1 [8], .decided ⟨5, 0, 1, [7]⟩, .addRequest 2 [9]] :=
  (kept_iff 2 8 (by decide) (by decide) (by decide) _ (by decide +kernel)).mpr (by decide +kernel)

/-- Three requests in a row, and a window of two: all are accepted, and the first one is gone. -/
theorem not_kept : ¬ ∀ (w maxRequestSize : Nat) (hs : maxRequestSize < 2 ^ 63) (ops : List Op),
    1 ≤ w → w < 2 ^ 64 → (runs increasing (start w maxRequestSize hs) ops).isSome = true →
      (start w maxRequestSize hs).AllKept ops := by
  intro h
  have hr : (runs increasing (start 2 8 (by decide))
      [.addRequest 0 [7], .addRequest 1 [8], .addRequest 2 [9]]).isSome = true := by decide +kernel
  have ha := h 2 8 (by decide) _ (by decide) (by decide) hr
  have hsparing := (allKept_iff (by decide) (by decide) (inv_start _ _ _) (kept_start _ _ _) hr).mp ha
  exact absurd hsparing (by decide +kernel)

/-! ### A window of one -/

/-- Nothing above what was accepted is. -/
def Tight (h : History) : Prop :=
  ∀ a ∈ h.accepted, ∃ bound ∈ h.requests.acceptBelow, bound ≤ a.1 + 1

/-- With a window of one the next request waits for the decision. -/
theorem Tight.next (ht : h.Tight) (hi : Inv 1 h) (hinc : h.Increasing op)
    (hn : h.next op = some h') : h.Spares op ∧ h'.Tight := by
  cases op with
  | addRequest id request =>
      obtain ⟨hinc, -⟩ := hinc
      rcases next_addRequest Nat.one_pos hi hinc hn with ⟨hb, rfl⟩ | ha
      · exact ⟨.inl hb, ht⟩
      · -- nothing is accepted while something is not decided
        have hempty : ∀ a ∈ h.accepted, False := fun a hm => by
          obtain ⟨bound, hbound, hle⟩ := ht a hm
          have hlt : a.1 + 1 ≤ h.nextId := hi.accepted a hm
          exact ha.below ⟨bound, hbound, hle.trans (hlt.trans hinc)⟩
        refine ⟨.inr (.inl (List.eq_nil_iff_forall_not_mem.mpr hempty)), fun a hm => ?_⟩
        rw [ha.accepted] at hm
        rcases List.mem_cons.mp hm with rfl | hm
        · exact ⟨_, ha.acceptBelow, Nat.mod_le _ _⟩
        · exact (hempty a hm).elim
  | decided r =>
      cases hn
      refine ⟨trivial, fun a hm => ⟨_, rfl, ?_⟩⟩
      have hlt : r.id < a.1 := of_decide_eq_true (List.mem_filter.mp hm).2
      refine (Nat.mod_le _ _).trans ?_
      rw [hi.window]
      exact Nat.add_le_add_right hlt 1

theorem sparing_of_tight {ops : List Op} (ht : h.Tight) (hi : Inv 1 h)
    (hr : (runs increasing h ops).isSome = true) : h.Sparing ops := by
  induction ops generalizing h with
  | nil => trivial
  | cons op ops ih =>
      rw [runs] at hr
      cases hn : h.increasing op with
      | none =>
          rw [hn] at hr
          cases hr
      | some h₁ =>
          rw [hn] at hr
          obtain ⟨hinc, hnext⟩ := increasing_cases hn
          obtain ⟨hs, ht₁⟩ := ht.next hi hinc hnext
          rw [Sparing, hn]
          exact ⟨hs, ih ht₁ (hi.next Nat.one_pos hinc hnext) hr⟩

/-- **A window of one** keeps what it accepted. -/
theorem kept_of_window_one (maxRequestSize : Nat) (hs : maxRequestSize < 2 ^ 63) (ops : List Op)
    (hr : (runs increasing (start 1 maxRequestSize hs) ops).isSome = true) :
    (start 1 maxRequestSize hs).AllKept ops :=
  (allKept_iff Nat.one_pos (by decide) (inv_start 1 _ hs) (kept_start 1 _ hs) hr).mpr
    (sparing_of_tight (fun _ hm => nomatch hm) (inv_start 1 _ hs) hr)

end History

end Ubft.Requests

import Ubft.Certifier.Check
import Ubft.Certifier.OwnShares

/-!
# Certifier — sending the replica's own shares

A share passes through three places that drop what they take for the oldest: the two queues of
computations, which are in order, and the queue of the shares computed, which is in the order the
workers end in.  `acknowledge` trims the last one from its front, too, so it can drop the share of
a message that is still in the tail, and the sender then stops at its index for good
(`not_useful`).  As long as it drops none of those (`Trims`), and no place in the tail wraps
(`Unwrapped`), the share of every message of the tail is on its way until it is sent
(`useful_of_reachable`).
-/

namespace Ubft.Certifier

variable {M : Type} {cr : Crypto M}

/-! ### Queues that drop their oldest task -/

section Queues

variable {tail i : Nat} {q : List (Nat × M)} {m : M} {e : Nat × M}

theorem mem_enqueue_self : (i, m) ∈ enqueue tail q (i, m) :=
  List.mem_append_right _ List.mem_cons_self

/-- The task dropped is `tail` indices behind. -/
theorem dropped_or_mem_enqueue (hq : q.Pairwise fun e e' => e.1 < e'.1) (hi : ∀ e ∈ q, e.1 < i)
    (he : e ∈ q) : e.1 + tail ≤ i ∨ e ∈ enqueue tail q (i, m) := by
  unfold enqueue
  split
  · next hlt =>
      cases q with
      | nil => cases he
      | cons h q =>
          rcases List.mem_cons.mp he with rfl | he
          · have hlen := OrdMap.length_le_of_pairwise hq (a := e.1) (b := i) fun e' h' => by
              refine ⟨?_, hi e' h'⟩
              rcases List.mem_cons.mp h' with rfl | h'
              · exact le_rfl
              · exact ((List.pairwise_cons.mp hq).1 e' h').le
            have hle := hi e List.mem_cons_self
            exact .inl (by omega)
          · exact .inr (List.mem_append_left _ he)
  · exact .inr (List.mem_append_left _ he)

/-- A later message is enqueued at the end. -/
theorem pairwise_enqueue (hq : q.Pairwise fun e e' => e.1 < e'.1) (hi : ∀ e ∈ q, e.1 < i) :
    (enqueue tail q (i, m)).Pairwise fun e e' => e.1 < e'.1 := by
  refine List.pairwise_append.mpr ⟨?_, List.pairwise_singleton _ _, fun e he e' he' => ?_⟩
  · split
    · exact hq.sublist (List.drop_sublist 1 q)
    · exact hq
  · rw [List.mem_singleton.mp he']
    refine hi e ?_
    split at he
    · exact List.mem_of_mem_drop he
    · exact he

end Queues

/-! ### The sorted shares -/

/-- The last share computed under an index. -/
def lastShare (shs : List Share) (i : Index) : Option Share :=
  shs.reverse.find? (fun sh => decide (sh.msgIndex = i))

/-- An index has a share when one was computed. -/
theorem lastShare_isSome {shs : List Share} {i : Index} :
    (lastShare shs i).isSome ↔ i ∈ shs.map (·.msgIndex) := by
  simp [lastShare, List.find?_isSome]

theorem msgIndex_of_lastShare {shs : List Share} {i : Index} {sh : Share}
    (h : lastShare shs i = some sh) : sh.msgIndex = i :=
  of_decide_eq_true (List.find?_some h :)

/-- A place reserved is taken by the last share computed for it. -/
theorem find?_sortComputed (s : Certifier M) (i : Index) :
    s.sortComputed.find? i =
      (s.sortedComputedShares.find? i).map fun o => (lastShare s.computedShares i).or o := by
  unfold sortComputed
  generalize s.sortedComputedShares = t
  generalize s.computedShares = shs
  induction shs generalizing t with
  | nil =>
      change t.find? i = (t.find? i).map fun o => none.or o
      simp
  | cons sh shs ih =>
      rw [List.foldl_cons, ih, TailMap.find?_modify]
      have hnew : lastShare (sh :: shs) i =
          (lastShare shs i).or (if sh.msgIndex = i then some sh else none) := by
        rw [lastShare, List.reverse_cons, List.find?_append]
        simp only [List.find?_singleton, decide_eq_true_eq]
        rfl
      rw [hnew]
      by_cases hi : i = sh.msgIndex
      · rw [if_pos hi, if_pos hi.symm, hi, Option.map_map]
        congr 1
        funext o
        simp
      · rw [if_neg hi, if_neg (Ne.symm hi)]
        simp

theorem isSome_of_sortComputed {s : Certifier M} {i : Index} {o : Option Share}
    (h : s.sortComputed.find? i = some o) : (s.sortedComputedShares.find? i).isSome := by
  rw [find?_sortComputed] at h
  obtain ⟨o', ho', -⟩ := Option.map_eq_some_iff.mp h
  rw [ho']
  rfl

/-- A computed share has its place filled. -/
theorem exists_sortComputed_of_mem {s : Certifier M} {i : Index} {o : Option Share}
    (hi : i ∈ s.computedShares.map (·.msgIndex)) (ho : s.sortedComputedShares.find? i = some o) :
    ∃ sh, s.sortComputed.find? i = some (some sh) := by
  obtain ⟨sh, hsh⟩ := Option.isSome_iff_exists.mp (lastShare_isSome.mpr hi)
  exact ⟨sh, by rw [find?_sortComputed, ho, hsh]; rfl⟩

/-- A filled place stays filled. -/
theorem exists_sortComputed_of_sorted {s : Certifier M} {i : Index} {sh : Share}
    (h : s.sortedComputedShares.find? i = some (some sh)) :
    ∃ sh, s.sortComputed.find? i = some (some sh) := by
  cases hn : lastShare s.computedShares i with
  | none => exact ⟨sh, by rw [find?_sortComputed, h, hn]; rfl⟩
  | some sh' => exact ⟨sh', by rw [find?_sortComputed, h, hn]; rfl⟩

section Sendable

variable {first i : Index} {o : Option Share} {sh : Share} {l : List (Index × Option Share)}

/-- A useless share is skipped, a missing one ends the round. -/
theorem sendable_cons : sendable first ((i, o) :: l) =
    if i < first then sendable first l
    else o.elim [] fun sh => sh :: sendable first l := by
  cases o <;> rfl

theorem sendableEnd_cons : sendableEnd first ((i, o) :: l) =
    if i < first then max (i + 1) (sendableEnd first l)
    else o.elim i fun _ => max (i + 1) (sendableEnd first l) := by
  cases o <;> rfl

/-- What is sent has its place in the range, at its index. -/
theorem place_of_sendable (h : sh ∈ sendable first l) :
    ∃ k, (k, some sh) ∈ l ∧ first ≤ k ∧ k < sendableEnd first l := by
  induction l with
  | nil => cases h
  | cons e l ih =>
      obtain ⟨j, p⟩ := e
      have hrest : ∀ b, sh ∈ sendable first l →
          ∃ k, (k, some sh) ∈ (j, p) :: l ∧ first ≤ k ∧ k < max b (sendableEnd first l) := by
        intro b hm
        obtain ⟨k, hk, hf, hlt⟩ := ih hm
        exact ⟨k, List.mem_cons_of_mem _ hk, hf, hlt.trans_le (Nat.le_max_right ..)⟩
      rw [sendable_cons] at h
      rw [sendableEnd_cons]
      split at h
      · next hj => rw [if_pos hj]; exact hrest _ h
      · next hj =>
          rw [if_neg hj]
          cases p with
          | none => cases h
          | some sh' =>
              rcases List.mem_cons.mp h with rfl | h
              · exact ⟨j, List.mem_cons_self, Nat.not_lt.mp hj,
                  (Nat.lt_succ_self j).trans_le (Nat.le_max_left ..)⟩
              · exact hrest _ h

/-- Everything in the range is sent. -/
theorem sent_of_lt_sendableEnd (hl : l.Pairwise fun e e' => e.1 < e'.1) (h : (i, o) ∈ l)
    (hf : first ≤ i) (hi : i < sendableEnd first l) : ∃ sh, o = some sh ∧ sh ∈ sendable first l := by
  induction l with
  | nil => cases h
  | cons e l ih =>
      obtain ⟨j, p⟩ := e
      obtain ⟨hlt, hl⟩ := List.pairwise_cons.mp hl
      have hrest : (i, o) ∈ l → i < max (j + 1) (sendableEnd first l) →
          ∃ sh, o = some sh ∧ sh ∈ sendable first l := by
        intro hm hlast
        have hj : j < i := hlt _ hm
        refine ih hl hm ((Nat.lt_or_ge i (sendableEnd first l)).resolve_right fun hge => ?_)
        exact absurd hlast (Nat.not_lt.mpr (Nat.max_le.mpr ⟨hj, hge⟩))
      rw [sendableEnd_cons] at hi
      rw [sendable_cons]
      split at hi
      · next hj =>
          rw [if_pos hj]
          rcases List.mem_cons.mp h with heq | h
          · cases heq; exact absurd hj (Nat.not_lt.mpr hf)
          · exact hrest h hi
      · next hj =>
          rw [if_neg hj]
          cases p with
          | none =>
              rcases List.mem_cons.mp h with heq | h
              · cases heq; exact absurd hi (Nat.lt_irrefl _)
              · exact absurd hi (Nat.not_lt.mpr (hlt _ h).le)
          | some sh =>
              rcases List.mem_cons.mp h with heq | h
              · cases heq; exact ⟨sh, rfl, List.mem_cons_self⟩
              · obtain ⟨sh', ho, hm⟩ := hrest h hi
                exact ⟨sh', ho, List.mem_cons_of_mem _ hm⟩

/-- The sender only stops at a place that is not taken. -/
theorem gap_of_sendableEnd_le (h : (i, o) ∈ l) (hf : first ≤ i) (hi : sendableEnd first l ≤ i)
    (hl : l.Pairwise fun e e' => e.1 < e'.1) : ∃ k, (k, none) ∈ l ∧ first ≤ k ∧ k ≤ i := by
  induction l with
  | nil => cases h
  | cons e l ih =>
      obtain ⟨j, p⟩ := e
      obtain ⟨hlt, hl⟩ := List.pairwise_cons.mp hl
      have hrest : (i, o) ∈ l → sendableEnd first l ≤ i →
          ∃ k, (k, none) ∈ (j, p) :: l ∧ first ≤ k ∧ k ≤ i := by
        intro hm hle
        obtain ⟨k, hk, hkf, hki⟩ := ih hm hle hl
        exact ⟨k, List.mem_cons_of_mem _ hk, hkf, hki⟩
      rw [sendableEnd_cons] at hi
      split at hi
      · next hj =>
          rcases List.mem_cons.mp h with heq | h
          · cases heq; exact absurd hj (Nat.not_lt.mpr hf)
          · exact hrest h ((Nat.le_max_right ..).trans hi)
      · next hj =>
          cases p with
          | none => exact ⟨j, List.mem_cons_self, Nat.not_lt.mp hj, hi⟩
          | some sh =>
              rcases List.mem_cons.mp h with heq | h
              · cases heq
                exact absurd ((Nat.le_max_left ..).trans hi) (Nat.not_le.mpr (Nat.lt_succ_self _))
              · exact hrest h ((Nat.le_max_right ..).trans hi)

/-- Shares are sent in the order of their places. -/
theorem pairwise_sendable (hl : l.Pairwise fun e e' => e.1 < e'.1)
    (hi : ∀ k sh, (k, some sh) ∈ l → sh.msgIndex = k) :
    ((sendable first l).map (·.msgIndex)).Pairwise (· < ·) := by
  induction l with
  | nil => exact List.Pairwise.nil
  | cons e l ih =>
      obtain ⟨j, p⟩ := e
      obtain ⟨hlt, hl⟩ := List.pairwise_cons.mp hl
      have hrest := ih hl fun k sh hm => hi k sh (List.mem_cons_of_mem _ hm)
      rw [sendable_cons]
      split
      · exact hrest
      · cases p with
        | none => exact List.Pairwise.nil
        | some sh =>
            refine List.pairwise_cons.mpr ⟨fun k hk => ?_, hrest⟩
            obtain ⟨sh', hm, rfl⟩ := List.mem_map.mp hk
            obtain ⟨k, hk, -, -⟩ := place_of_sendable hm
            have hj : sh.msgIndex = j := hi j sh List.mem_cons_self
            have hk' : sh'.msgIndex = k := hi k sh' (List.mem_cons_of_mem _ hk)
            change sh.msgIndex < sh'.msgIndex
            rw [hj, hk']
            exact hlt _ hk

end Sendable

/-! ### The shares on their way -/

namespace Signer

/-- The message is in the tail. -/
def InTail (s : Signer M) (i : Index) : Prop := (s.certifier.msgTail.find? i).isSome

/-- The indices whose computation is not offloaded. -/
def queued (s : Signer M) : List Index := s.certifier.queuedShareComputations.map (·.1)

/-- The indices whose share the pool is to compute, or computed and was not polled. -/
def underWay (s : Signer M) : List Index :=
  s.certifier.shareComputations.map (·.1) ++ s.runningShares.map (·.1) ++
    s.certifier.computedShares.map (·.msgIndex)

/-- The indices of the shares sent. -/
def sentIndices (s : Signer M) : List Index := s.sent.map (·.msgIndex)

/-- The share of `i` is computed, and it is not lost. -/
def Computed (s : Signer M) (i : Index) : Prop :=
  i ∈ s.certifier.computedShares.map (·.msgIndex) ∨
    (∃ sh, s.certifier.sortedComputedShares.find? i = some (some sh)) ∨ i ∈ s.sentIndices

/-- The share of `i` is waited for, or computed and not lost. -/
def Held (s : Signer M) (i : Index) : Prop := i ∈ s.queued ∨ i ∈ s.underWay ∨ s.Computed i

/-- The shares of the messages in the tail are on their way, the sender waits for none that is
not, and the shares sent are in order. -/
structure Useful (s : Signer M) : Prop where
  held : ∀ i, s.InTail i → s.Held i
  unblocked : ∀ i, s.InTail i → s.certifier.sortedComputedShares.find? i = some none →
    i ∈ s.underWay
  increasing : s.sentIndices.Pairwise (· < ·)

/-- No computed share of a message in the tail is lost. -/
def Keeps (s s' : Signer M) : Prop := ∀ i, s'.InTail i → s.Computed i → s'.Computed i

/-- The sender has caught up with what was offloaded. -/
def Drained (s : Signer M) : Prop := ∀ i, s.InTail i → i ∈ s.queued ∨ i ∈ s.sentIndices

/-- The share of `i` was handed to the pool. -/
def Offloaded (s : Signer M) (i : Index) : Prop :=
  i ∈ s.underWay ∨ (s.certifier.sortedComputedShares.find? i).isSome ∨ i ∈ s.sentIndices

/-- Where the share of a message in the tail is. -/
inductive Place (s : Signer M) (i : Index) : Prop where
  | queued (h : i ∈ s.queued)
  | reserved (h : s.certifier.sortedComputedShares.find? i = some none) (hu : i ∈ s.underWay)
  | sorted (sh : Share) (h : s.certifier.sortedComputedShares.find? i = some (some sh))
  | sent (h : i ∈ s.sentIndices)

/-- What every good step keeps. -/
structure Inv (s : Signer M) : Prop where
  bound : s.certifier.msgTail.tail = s.certifier.tail
  sortedBound : s.certifier.sortedComputedShares.tail = s.certifier.tail
  newest : ∀ j ∈ s.acknowledged, j ≤ s.certifier.msgTail.min
  queue : s.certifier.queuedShareComputations.Pairwise fun e e' => e.1 < e'.1
  tasks : s.certifier.shareComputations.Pairwise fun e e' => e.1 < e'.1
  increasing : s.sentIndices.Pairwise (· < ·)
  index : ∀ i sh, s.certifier.sortedComputedShares.find? i = some (some sh) → sh.msgIndex = i
  known : ∀ i, i ∈ s.queued ∨ s.Offloaded i → i ∈ s.acknowledged
  acknowledged : ∀ i, s.InTail i → i ∈ s.acknowledged
  /-- Only the place of the newest message wraps. -/
  unwrapped : ∀ j ∈ s.acknowledged, ∀ k ∈ s.acknowledged, j < k → j + s.certifier.tail < 2 ^ 64
  inOrder : ∀ i, s.Offloaded i → ∀ j ∈ s.queued, i < j
  behind : ∀ i ∈ s.sentIndices, ∀ j, (s.certifier.sortedComputedShares.find? j).isSome → i < j
  /-- The tail is a window on what was acknowledged, up to the newest. -/
  window : ∀ i, s.InTail i → ∀ j ∈ s.acknowledged, j ≤ i ∨ j < i + s.certifier.tail
  upward : ∀ i, s.InTail i → ∀ j ∈ s.acknowledged, i ≤ j → s.InTail j
  place : ∀ i, s.InTail i → s.Place i

/-- The invariant holds the useful shares. -/
theorem Inv.useful {s : Signer M} (h : s.Inv) : s.Useful where
  held i hi := by
    rcases h.place i hi with hq | ⟨-, hu⟩ | ⟨sh, hs⟩ | hs
    · exact .inl hq
    · exact .inr (.inl hu)
    · exact .inr (.inr (.inr (.inl ⟨sh, hs⟩)))
    · exact .inr (.inr (.inr (.inr hs)))
  unblocked i hi hn := by
    have hsome : (s.certifier.sortedComputedShares.find? i).isSome := by rw [hn]; rfl
    rcases h.place i hi with hq | ⟨-, hu⟩ | ⟨sh, hs⟩ | hs
    · exact absurd (h.inOrder i (.inr (.inl hsome)) i hq) (Nat.lt_irrefl i)
    · exact hu
    · rw [hn] at hs; cases hs
    · exact absurd (h.behind i hs i hsome) (Nat.lt_irrefl i)
  increasing := h.increasing

theorem Inv.init {s : Signer M} (h : s.Init) : s.Inv := by
  obtain ⟨-, ⟨tail, identifier, receivers, rfl⟩, rfl⟩ := h
  exact
    { bound := rfl
      sortedBound := rfl
      newest := fun _ h => absurd h List.not_mem_nil
      queue := .nil
      tasks := .nil
      increasing := .nil
      index := fun _ _ h => nomatch h
      known := fun i h => by rcases h with h | h | h | h <;> cases h
      acknowledged := fun _ h => nomatch h
      unwrapped := fun _ h => absurd h List.not_mem_nil
      inOrder := fun _ _ _ h => absurd h List.not_mem_nil
      behind := fun _ h => absurd h List.not_mem_nil
      window := fun _ h => nomatch h
      upward := fun _ h => nomatch h
      place := fun _ h => nomatch h }

/-! ### The steps that drop nothing -/

/-- At most, messages are forgotten and a share moves on among the workers. -/
structure Moves (s s' : Signer M) : Prop where
  tail : s'.certifier.tail = s.certifier.tail
  bound : s'.certifier.msgTail.tail = s.certifier.msgTail.tail
  min : s'.certifier.msgTail.min = s.certifier.msgTail.min
  queue : s'.certifier.queuedShareComputations = s.certifier.queuedShareComputations
  sorted : s'.certifier.sortedComputedShares = s.certifier.sortedComputedShares
  sent : s'.sent = s.sent
  acknowledged : s'.acknowledged = s.acknowledged
  kept : ∀ i, s'.InTail i → s.InTail i
  upward : ∀ i j, s'.InTail i → i ≤ j → s.InTail j → s'.InTail j
  tasks : s'.certifier.shareComputations.Sublist s.certifier.shareComputations
  underWay : ∀ i, i ∈ s'.underWay ↔ i ∈ s.underWay
  computed : ∀ i ∈ s.certifier.computedShares.map (·.msgIndex),
    i ∈ s'.certifier.computedShares.map (·.msgIndex)

variable {s s' : Signer M}

/-- A step that moves messages between the stages. -/
theorem Inv.moves (h : s.Inv) (hm : Moves s s') : s'.Inv := by
  have hqueued : s'.queued = s.queued := by rw [queued, hm.queue]; rfl
  have hsent : s'.sentIndices = s.sentIndices := by rw [sentIndices, hm.sent]; rfl
  have hoff : ∀ i, s'.Offloaded i → s.Offloaded i := by
    intro i hi
    unfold Offloaded at hi
    rw [hm.underWay, hm.sorted, hsent] at hi
    exact hi
  refine
    { bound := by rw [hm.bound, hm.tail, h.bound]
      sortedBound := by rw [hm.sorted, hm.tail, h.sortedBound]
      newest := by rw [hm.acknowledged, hm.min]; exact h.newest
      queue := by rw [hm.queue]; exact h.queue
      tasks := h.tasks.sublist hm.tasks
      increasing := by rw [hsent]; exact h.increasing
      index := by rw [hm.sorted]; exact h.index
      known := fun i hi => ?_
      acknowledged := fun i hi => by rw [hm.acknowledged]; exact h.acknowledged i (hm.kept i hi)
      unwrapped := by rw [hm.acknowledged, hm.tail]; exact h.unwrapped
      inOrder := fun i hi => by rw [hqueued]; exact h.inOrder i (hoff i hi)
      behind := by rw [hsent, hm.sorted]; exact h.behind
      window := fun i hi => by rw [hm.acknowledged, hm.tail]; exact h.window i (hm.kept i hi)
      upward := fun i hi j hj hij => ?_
      place := fun i hi => ?_ }
  · rw [hqueued] at hi
    rw [hm.acknowledged]
    exact h.known i (hi.imp_right (hoff i))
  · rw [hm.acknowledged] at hj
    exact hm.upward i j hi hij (h.upward i (hm.kept i hi) j hj hij)
  · rcases h.place i (hm.kept i hi) with hq | ⟨hr, hu⟩ | ⟨sh, hs⟩ | hs
    · exact .queued (hqueued ▸ hq)
    · exact .reserved (hm.sorted ▸ hr) ((hm.underWay i).mpr hu)
    · exact .sorted sh (hm.sorted ▸ hs)
    · exact .sent (hsent ▸ hs)

/-- Nothing is sent or acknowledged. -/
theorem Moves.keeps (hm : Moves s s') : Keeps s s' := by
  intro i _ hc
  rcases hc with hc | ⟨sh, hs⟩ | hs
  · exact .inl (hm.computed i hc)
  · exact .inr (.inl ⟨sh, hm.sorted ▸ hs⟩)
  · refine .inr (.inr ?_)
    rw [sentIndices, hm.sent]
    exact hs

theorem Moves.refl (s : Signer M) : Moves s s :=
  ⟨rfl, rfl, rfl, rfl, rfl, rfl, rfl, fun _ h => h, fun _ _ _ _ h => h, .refl _, fun _ => .rfl,
    fun _ h => h⟩

theorem moves_aside {c : Certifier M} (h : Aside s.certifier c) :
    Moves s { s with certifier := c } where
  tail := h.tail
  bound := h.bound
  min := h.min
  queue := h.queued
  sorted := h.sorted
  sent := rfl
  acknowledged := rfl
  kept i hi := (h.keys i).symm.trans hi
  upward _ j _ _ hj := (h.keys j).trans hj
  tasks := by rw [h.tasks]
  underWay i := by simp only [underWay, h.tasks, h.computed]
  computed i hi := by rw [h.computed]; exact hi

/-- Forgotten messages are not useful any more. -/
theorem moves_forget (s : Signer M) (o : Option Index) :
    Moves s { s with certifier := s.certifier.forgetMessages o } := by
  cases o with
  | none =>
      exact ⟨rfl, rfl, rfl, rfl, rfl, rfl, rfl, (fun _ h => nomatch h),
        (fun _ _ h => nomatch h), .refl _, fun _ => .rfl, fun _ h => h⟩
  | some k =>
      have hkeys : ∀ i, ({ s with certifier := s.certifier.forgetMessages (some k) } :
          Signer M).InTail i ↔ k < i ∧ s.InTail i := by
        intro i
        change ((s.certifier.msgTail.popBelow (k + 1)).find? i).isSome ↔ _
        rw [TailMap.find?_popBelow]
        split
        · next hi => exact ⟨(nomatch ·), fun h => absurd h.1 (Nat.not_lt.mpr (Nat.le_of_lt_succ hi))⟩
        · next hi => exact ⟨fun h => ⟨Nat.not_le.mp fun hle => hi (Nat.lt_succ_of_le hle), h⟩, (·.2)⟩
      refine ⟨rfl, rfl, rfl, rfl, rfl, rfl, rfl, fun i h => ((hkeys i).mp h).2,
        fun i j hi hij hj => ?_, .refl _, fun _ => .rfl, fun _ h => h⟩
      exact (hkeys j).mpr ⟨((hkeys i).mp hi).1.trans_le hij, hj⟩

theorem moves_startShare (s : Signer M) : Moves s s.startShare := by
  unfold startShare
  split
  · exact .refl s
  · next t ts ht =>
      refine ⟨rfl, rfl, rfl, rfl, rfl, rfl, rfl, fun _ h => h, fun _ _ _ _ h => h, ?_, fun i => ?_,
        fun _ h => h⟩
      · rw [ht]; exact List.sublist_cons_self t ts
      · simp only [underWay, ht, List.map_append, List.mem_append, List.map_cons, List.map_nil,
          List.mem_cons, List.not_mem_nil, or_false]
        tauto

theorem mem_iff_eraseIdx {α : Type} {l : List α} {k : Nat} {a b : α} (h : l[k]? = some a) :
    b ∈ l ↔ b = a ∨ b ∈ l.eraseIdx k := by
  obtain ⟨hk, rfl⟩ := List.getElem?_eq_some_iff.mp h
  rw [← (List.getElem_cons_eraseIdx_perm hk).mem_iff, List.mem_cons]

theorem moves_finishShare (s : Signer M) (k : Nat) : Moves s (s.finishShare cr k) := by
  unfold finishShare
  split
  · exact .refl s
  · next i m hk =>
      refine ⟨rfl, rfl, rfl, rfl, rfl, rfl, rfl, fun _ h => h, fun _ _ _ _ h => h, .refl _,
        fun j => ?_, fun j hj => ?_⟩
      · have hrun : j ∈ s.runningShares.map (·.1) ↔
            j = i ∨ j ∈ (s.runningShares.eraseIdx k).map (·.1) := by
          simp only [List.mem_map, mem_iff_eraseIdx hk]
          constructor
          · rintro ⟨e, rfl | he, rfl⟩
            · exact .inl rfl
            · exact .inr ⟨e, he, rfl⟩
          · rintro (rfl | ⟨e, he, rfl⟩)
            · exact ⟨_, .inl rfl, rfl⟩
            · exact ⟨e, .inr he, rfl⟩
        simp only [underWay, List.map_append, List.mem_append, hrun, List.map_cons, List.map_nil,
          List.mem_cons, List.not_mem_nil, or_false]
        tauto
      · rw [List.map_append]
        exact List.mem_append_left _ hj

/-- Shares may be computed in any order. -/
theorem moves_reorder (s : Signer M) (k : Nat) : Moves s (s.reorder k) := by
  unfold reorder
  split
  · exact .refl s
  · next sh hk =>
      have hmem : ∀ j, j ∈ s.certifier.computedShares.map (·.msgIndex) ↔
          j ∈ (sh :: s.certifier.computedShares.eraseIdx k).map (·.msgIndex) := by
        intro j
        simp only [List.mem_map, List.mem_cons, mem_iff_eraseIdx hk]
      refine ⟨rfl, rfl, rfl, rfl, rfl, rfl, rfl, fun _ h => h, fun _ _ _ _ h => h, .refl _,
        fun j => ?_, fun j hj => (hmem j).mp hj⟩
      simp only [underWay, List.mem_append, hmem j]

/-! ### Acknowledging -/

/-- What `acknowledge` does to the replica's own shares. -/
structure Appended (s s' : Certifier M) (i : Index) (m : M) : Prop where
  newest : s.msgTail.min ≤ i
  tail : s'.tail = s.tail
  bound : s'.msgTail.tail = s.msgTail.tail
  min : s'.msgTail.min = i
  keys : ∀ k, (s'.msgTail.find? k).isSome ↔
    k = i ∨ (i < k + s.msgTail.tail ∧ (s.msgTail.find? k).isSome)
  queue : s'.queuedShareComputations = enqueue s.tail s.queuedShareComputations (i, m)
  tasks : s'.shareComputations = s.shareComputations
  computed : s'.computedShares = s.computedShares.drop (s.computedShares.length + 1 - s.tail)
  sorted : s'.sortedComputedShares = s.sortedComputedShares

/-- An acknowledged message joins the stages. -/
theorem appended_acknowledge {c c' : Certifier M} {i : Index} {m : M} (hb : c.msgTail.Bounded)
    (h : c.acknowledge cr i m = .ok c') : Appended c c' i m := by
  unfold acknowledge at h
  split at h
  · cases h
  · cases h
  · next t ht =>
      obtain ⟨c₁, h₁, h₂⟩ := bind_eq_ok.mp h
      cases h₂
      have hr : Aside c₁ (replayBufferedShares cr i c₁) := aside_replayBufferedShares i c₁
      have ha := (aside_replayBufferedPromises h₁).trans hr
      rw [TailMap.tryEmplaceWord_eq hb] at ht
      obtain ⟨hno, -⟩ | ⟨-, hmin, hm, hb, hf, -⟩ := TailMap.tryEmplace_cases ht
      · cases hno
      · refine ⟨hmin, ha.tail, ha.bound.trans hb, ha.min.trans hm, fun k => ?_, ?_, ha.tasks, ?_,
          ha.sorted⟩
        · change ((replayBufferedShares cr i c₁).msgTail.find? k).isSome ↔ _
          rw [ha.keys k]
          change (t.find? k).isSome ↔ _
          rw [hf k]
          split
          · next hk => exact ⟨fun _ => .inl hk, fun _ => rfl⟩
          · next hk =>
              split
              · next hle => exact ⟨(nomatch ·), fun h => absurd (h.resolve_left hk).1 (Nat.not_lt.mpr hle)⟩
              · next hle => exact ⟨fun h => .inr ⟨Nat.not_le.mp hle, h⟩, fun h => (h.resolve_left hk).2⟩
        · change enqueue _ _ _ = _
          rw [ha.tail, ha.queued]
        · change List.drop _ _ = _
          rw [ha.tail, ha.computed]

/-- The places in the tail do not wrap where a message is acknowledged. -/
theorem Inv.bounded (h : s.Inv) {i : Index} {m : M}
    (hop : s.Unwrapped (.op (.acknowledge i m))) : s.certifier.msgTail.Bounded := by
  rintro ⟨j, d⟩ he
  have hj : s.InTail j := by
    rw [InTail, show s.certifier.msgTail.find? j = some d from OrdMap.mem_entries_iff.mp he]
    rfl
  rw [h.bound]
  exact hop j (h.acknowledged j hj)

/-- A message acknowledged joins the tail, and pushes out those that are far enough behind. -/
theorem Inv.inTail_appended (h : s.Inv) {i k : Index} {m : M}
    (ha : Appended s.certifier s'.certifier i m) :
    s'.InTail k ↔ k = i ∨ (i < k + s.certifier.tail ∧ s.InTail k) := by
  rw [← h.bound]
  exact ha.keys k

theorem Appended.mem_queued {i k : Index} {m : M} (ha : Appended s.certifier s'.certifier i m)
    (hk : k ∈ s'.queued) : k = i ∨ k ∈ s.queued := by
  rw [queued, ha.queue] at hk
  obtain ⟨e, he, rfl⟩ := List.mem_map.mp hk
  rcases mem_enqueue he with rfl | he
  · exact .inl rfl
  · exact .inr (List.mem_map_of_mem he)

/-- A share dropped is not of a message that stays in the tail. -/
theorem Appended.mem_computedShares {i k : Index} {m : M}
    (ha : Appended s.certifier s'.certifier i m) (htrims : s.Trims (.op (.acknowledge i m)))
    (hk : i < k + s.certifier.tail) (hin : s.InTail k)
    (hc : k ∈ s.certifier.computedShares.map (·.msgIndex)) :
    k ∈ s'.certifier.computedShares.map (·.msgIndex) := by
  obtain ⟨sh, hsh, rfl⟩ := List.mem_map.mp hc
  rw [← List.take_append_drop (s.certifier.computedShares.length + 1 - s.certifier.tail)
    s.certifier.computedShares] at hsh
  rcases List.mem_append.mp hsh with hsh | hsh
  · exact absurd (htrims sh hsh hin) (Nat.not_le.mpr hk)
  · rw [ha.computed]
    exact List.mem_map_of_mem hsh

/-- So what the pool has of such a message stays. -/
theorem Appended.mem_underWay {i k : Index} {m : M} (ha : Appended s.certifier s'.certifier i m)
    (hrun : s'.runningShares = s.runningShares) (htrims : s.Trims (.op (.acknowledge i m)))
    (hk : i < k + s.certifier.tail) (hin : s.InTail k) (hu : k ∈ s.underWay) :
    k ∈ s'.underWay := by
  simp only [underWay, List.mem_append] at hu ⊢
  rw [ha.tasks, hrun]
  exact hu.imp_right (ha.mem_computedShares htrims hk hin)

/-- Acknowledging hands nothing to the pool. -/
theorem Appended.offloaded {i k : Index} {m : M} (ha : Appended s.certifier s'.certifier i m)
    (hrun : s'.runningShares = s.runningShares) (hsent : s'.sentIndices = s.sentIndices)
    (hk : s'.Offloaded k) : s.Offloaded k := by
  unfold Offloaded at hk
  rw [ha.sorted, hsent] at hk
  refine hk.imp_left fun hk => ?_
  simp only [underWay, List.mem_append, ha.tasks, hrun, ha.computed] at hk ⊢
  exact hk.imp_right fun hk => ((List.drop_sublist _ _).map _).subset hk

/-- What is not behind the tail stays where it was. -/
theorem Inv.place_appended (h : s.Inv) {i k : Index} {m : M}
    (ha : Appended s.certifier s'.certifier i m)
    (hlt : ∀ e ∈ s.certifier.queuedShareComputations, e.1 < i)
    (hrun : s'.runningShares = s.runningShares) (hsent : s'.sentIndices = s.sentIndices)
    (htrims : s.Trims (.op (.acknowledge i m))) (hik : i < k + s.certifier.tail)
    (hin : s.InTail k) : s'.Place k := by
  rcases h.place k hin with hq | ⟨hr, hu⟩ | ⟨sh, hs⟩ | hs
  · obtain ⟨e, he, rfl⟩ := List.mem_map.mp hq
    refine .queued ?_
    rw [queued, ha.queue]
    rcases dropped_or_mem_enqueue h.queue hlt he with hle | he
    · exact absurd hle (Nat.not_le.mpr hik)
    · exact List.mem_map_of_mem he
  · exact .reserved (ha.sorted ▸ hr) (ha.mem_underWay hrun htrims hik hin hu)
  · exact .sorted sh (ha.sorted ▸ hs)
  · exact .sent (hsent ▸ hs)

/-- The tail is still a window on what was acknowledged. -/
theorem Inv.window_appended (h : s.Inv) {i : Index} {m : M}
    (ha : Appended s.certifier s'.certifier i m) (hlt : ∀ j ∈ s.acknowledged, j < i) {k j : Index}
    (hk : s'.InTail k) (hj : j ∈ s.acknowledged ++ [i]) : j ≤ k ∨ j < k + s.certifier.tail := by
  rcases h.inTail_appended ha |>.mp hk with rfl | ⟨hik, hin⟩
  · rcases List.mem_append.mp hj with hj | hj
    · exact .inl (hlt j hj).le
    · exact .inl (List.mem_singleton.mp hj).le
  · rcases List.mem_append.mp hj with hj | hj
    · exact h.window k hin j hj
    · exact .inr (List.mem_singleton.mp hj ▸ hik)

/-- And it is all of it from its oldest message on. -/
theorem Inv.upward_appended (h : s.Inv) {i : Index} {m : M}
    (ha : Appended s.certifier s'.certifier i m) (hlt : ∀ j ∈ s.acknowledged, j < i) {k j : Index}
    (hk : s'.InTail k) (hj : j ∈ s.acknowledged ++ [i]) (hkj : k ≤ j) : s'.InTail j := by
  rcases List.mem_append.mp hj with hj | hj
  · have hji := hlt j hj
    rcases h.inTail_appended ha |>.mp hk with rfl | ⟨hik, hin⟩
    · exact absurd hji (Nat.not_lt.mpr hkj)
    · exact (h.inTail_appended ha).mpr
        (.inr ⟨hik.trans_le (Nat.add_le_add_right hkj _), h.upward k hin j hj hkj⟩)
  · exact (h.inTail_appended ha).mpr (.inl (List.mem_singleton.mp hj))

/-- A message acknowledged is queued, and what is not behind the tail stays where it was. -/
theorem Inv.acknowledge (h : s.Inv) {i : Index} {m : M} (hfresh : i ∉ s.acknowledged)
    (htrims : s.Trims (.op (.acknowledge i m)))
    (hunwrapped : s.Unwrapped (.op (.acknowledge i m)))
    (ha : Appended s.certifier s'.certifier i m)
    (hrun : s'.runningShares = s.runningShares) (hack : s'.acknowledged = s.acknowledged ++ [i])
    (hsent : s'.sent = s.sent) : s'.Inv ∧ Keeps s s' := by
  have hlt : ∀ j ∈ s.acknowledged, j < i := fun j hj =>
    lt_of_le_of_ne ((h.newest j hj).trans ha.newest) fun he => hfresh (he ▸ hj)
  have hqlt : ∀ e ∈ s.certifier.queuedShareComputations, e.1 < i := fun e he =>
    hlt _ (h.known _ (.inl (List.mem_map_of_mem he)))
  have hsent : s'.sentIndices = s.sentIndices := by rw [sentIndices, hsent]; rfl
  have hoff : ∀ k, s'.Offloaded k → s.Offloaded k := fun k => ha.offloaded hrun hsent
  refine ⟨
    { bound := by rw [ha.bound, ha.tail, h.bound]
      sortedBound := by rw [ha.sorted, ha.tail, h.sortedBound]
      newest := fun j hj => ?newest
      queue := by rw [ha.queue]; exact pairwise_enqueue h.queue hqlt
      tasks := by rw [ha.tasks]; exact h.tasks
      increasing := by rw [hsent]; exact h.increasing
      index := by rw [ha.sorted]; exact h.index
      known := fun k hk => ?known
      acknowledged := fun k hk => ?acknowledged
      unwrapped := fun j hj k hk hjk => ?unwrapped
      inOrder := fun k hk j hj => ?inOrder
      behind := by rw [hsent, ha.sorted]; exact h.behind
      window := by rw [hack, ha.tail]; exact fun k hk j hj => h.window_appended ha hlt hk hj
      upward := by rw [hack]; exact fun k hk j hj hkj => h.upward_appended ha hlt hk hj hkj
      place := fun k hk => ?place }, fun k hk hc => ?keeps⟩
  case newest =>
    rw [hack] at hj
    rw [ha.min]
    rcases List.mem_append.mp hj with hj | hj
    · exact (hlt j hj).le
    · exact (List.mem_singleton.mp hj).le
  case known =>
    rw [hack]
    rcases hk with hk | hk
    · rcases ha.mem_queued hk with rfl | hk
      · exact List.mem_append_right _ List.mem_cons_self
      · exact List.mem_append_left _ (h.known k (.inl hk))
    · exact List.mem_append_left _ (h.known k (.inr (hoff k hk)))
  case acknowledged =>
    rw [hack]
    rcases (h.inTail_appended ha).mp hk with rfl | ⟨-, hin⟩
    · exact List.mem_append_right _ List.mem_cons_self
    · exact List.mem_append_left _ (h.acknowledged k hin)
  case unwrapped =>
    rw [hack] at hj hk
    rw [ha.tail]
    rcases List.mem_append.mp hj with hj | hj
    · exact hunwrapped j hj
    · obtain rfl := List.mem_singleton.mp hj
      rcases List.mem_append.mp hk with hk | hk
      · exact absurd (hlt k hk) hjk.asymm
      · exact absurd (List.mem_singleton.mp hk) hjk.ne'
  case inOrder =>
    rcases ha.mem_queued hj with rfl | hj
    · exact hlt k (h.known k (.inr (hoff k hk)))
    · exact h.inOrder k (hoff k hk) j hj
  case place =>
    rcases (h.inTail_appended ha).mp hk with rfl | ⟨hik, hin⟩
    · refine .queued ?_
      rw [queued, ha.queue]
      exact List.mem_map_of_mem mem_enqueue_self
    · exact h.place_appended ha hqlt hrun hsent htrims hik hin
  case keeps =>
    rcases hc with hc | ⟨sh, hs⟩ | hs
    · have hki : k < i := hlt k (h.known k (.inr (.inl (List.mem_append_right _ hc))))
      obtain ⟨hik, hin⟩ := ((h.inTail_appended ha).mp hk).resolve_left hki.ne
      exact .inl (ha.mem_computedShares htrims hik hin hc)
    · exact .inr (.inl ⟨sh, ha.sorted ▸ hs⟩)
    · exact .inr (.inr (hsent ▸ hs))

/-! ### Offloading -/

/-- The queue is replaced in the end, so the computations are free to be taken out of it. -/
theorem offload_queue (c : Certifier M) (q q' : List (Index × M)) :
    Certifier.offload { c with queuedShareComputations := q' } q = c.offload q := by
  induction q generalizing c with
  | nil => rfl
  | cons e q ih =>
      obtain ⟨i, m⟩ := e
      rw [offload, offload]
      cases c.sortedComputedShares.tryEmplaceWord i none with
      | error _ => rfl
      | ok r =>
          exact ih { c with
            sortedComputedShares := r.1
            shareComputations := enqueue c.tail c.shareComputations (i, m) }

/-- What handing one computation to the pool does. -/
structure Handed (s s' : Signer M) (i : Index) (m : M) : Prop where
  tail : s'.certifier.tail = s.certifier.tail
  msgTail : s'.certifier.msgTail = s.certifier.msgTail
  queue : s.certifier.queuedShareComputations = (i, m) :: s'.certifier.queuedShareComputations
  tasks : s'.certifier.shareComputations =
    enqueue s.certifier.tail s.certifier.shareComputations (i, m)
  running : s'.runningShares = s.runningShares
  computed : s'.certifier.computedShares = s.certifier.computedShares
  bound : s'.certifier.sortedComputedShares.tail = s.certifier.sortedComputedShares.tail
  sorted : ∀ k, s'.certifier.sortedComputedShares.find? k =
    if k = i then some none
    else if k + s.certifier.sortedComputedShares.tail ≤ i then none
    else s.certifier.sortedComputedShares.find? k
  sent : s'.sent = s.sent
  acknowledged : s'.acknowledged = s.acknowledged

theorem Handed.mem_queued {i k : Index} {m : M} (hh : Handed s s' i m) :
    k ∈ s.queued ↔ k = i ∨ k ∈ s'.queued := by
  rw [queued, hh.queue]
  exact List.mem_cons

/-- Only its own index is handed to the pool. -/
theorem Handed.offloaded {i k : Index} {m : M} (hh : Handed s s' i m)
    (hsent : s'.sentIndices = s.sentIndices) (hk : s'.Offloaded k) : k = i ∨ s.Offloaded k := by
  rcases hk with hk | hk | hk
  · simp only [underWay, List.mem_append] at hk
    rw [hh.tasks, hh.running, hh.computed] at hk
    rcases hk with (hk | hk) | hk
    · obtain ⟨e, he, rfl⟩ := List.mem_map.mp hk
      rcases mem_enqueue he with rfl | he
      · exact .inl rfl
      · exact .inr (.inl (List.mem_append_left _ (List.mem_append_left _ (List.mem_map_of_mem he))))
    · exact .inr (.inl (List.mem_append_left _ (List.mem_append_right _ hk)))
    · exact .inr (.inl (List.mem_append_right _ hk))
  · rw [hh.sorted] at hk
    split at hk
    · next hki => exact .inl hki
    · split at hk
      · cases hk
      · exact .inr (.inr (.inl hk))
  · exact .inr (.inr (.inr (hsent ▸ hk)))

/-- No message of the tail is far enough behind a computation queued to lose its share. -/
theorem Inv.near (h : s.Inv) {i k : Index} (hi : i ∈ s.queued) (hk : s.InTail k) (hki : k < i) :
    ¬ k + s.certifier.tail ≤ i := by
  rcases h.window k hk i (h.known i (.inl hi)) with hle | hlt
  · exact absurd hki (Nat.not_lt.mpr hle)
  · exact Nat.not_le.mpr hlt

/-- What is in the place of a message of the tail stays there. -/
theorem Inv.find?_handed (h : s.Inv) {i k : Index} {m : M} (hh : Handed s s' i m)
    {o : Option Share} (hk : s.InTail k) (ho : s.certifier.sortedComputedShares.find? k = some o) :
    s'.certifier.sortedComputedShares.find? k = some o := by
  have hi : i ∈ s.queued := hh.mem_queued.mpr (.inl rfl)
  have hki : k < i := h.inOrder k (.inr (.inl (by rw [ho]; rfl))) i hi
  rw [hh.sorted, if_neg hki.ne, h.sortedBound, if_neg (h.near hi hk hki), ho]

/-- The computation handed has its place reserved, and the others are where they were. -/
theorem Inv.place_handed (h : s.Inv) {i k : Index} {m : M} (hh : Handed s s' i m)
    (htask : ∀ e ∈ s.certifier.shareComputations, e.1 < i)
    (hsent : s'.sentIndices = s.sentIndices) (hk : s.InTail k) : s'.Place k := by
  rcases h.place k hk with hq | ⟨hr, hu⟩ | ⟨sh, hs⟩ | hs
  · rcases hh.mem_queued.mp hq with rfl | hq
    · refine .reserved (by rw [hh.sorted, if_pos rfl]) ?_
      simp only [underWay, List.mem_append]
      rw [hh.tasks]
      exact .inl (.inl (List.mem_map_of_mem mem_enqueue_self))
    · exact .queued hq
  · refine .reserved (h.find?_handed hh hk hr) ?_
    simp only [underWay, List.mem_append] at hu ⊢
    rw [hh.tasks, hh.running, hh.computed]
    rcases hu with (hu | hu) | hu
    · obtain ⟨e, he, rfl⟩ := List.mem_map.mp hu
      rcases dropped_or_mem_enqueue h.tasks htask he with hle | he'
      · exact absurd hle (h.near (hh.mem_queued.mpr (.inl rfl)) hk (htask e he))
      · exact .inl (.inl (List.mem_map_of_mem he'))
    · exact .inl (.inr hu)
    · exact .inr hu
  · exact .sorted sh (h.find?_handed hh hk hs)
  · exact .sent (hsent ▸ hs)

/-- A computation handed to the pool has its place reserved. -/
theorem Inv.handed (h : s.Inv) {i : Index} {m : M} (hh : Handed s s' i m) :
    s'.Inv ∧ Keeps s s' := by
  have hsent : s'.sentIndices = s.sentIndices := by rw [sentIndices, hh.sent]; rfl
  have hin : ∀ k, s'.InTail k ↔ s.InTail k := fun k => by rw [InTail, hh.msgTail]; rfl
  have hi : i ∈ s.queued := hh.mem_queued.mpr (.inl rfl)
  have hqueue := h.queue
  rw [hh.queue] at hqueue
  obtain ⟨hlt, hqueue⟩ := List.pairwise_cons.mp hqueue
  have htask : ∀ e ∈ s.certifier.shareComputations, e.1 < i := fun e he =>
    h.inOrder _ (.inl (List.mem_append_left _ (List.mem_append_left _ (List.mem_map_of_mem he)))) i hi
  have hoff : ∀ k, s'.Offloaded k → k = i ∨ s.Offloaded k := fun k => hh.offloaded hsent
  refine ⟨
    { bound := by rw [hh.msgTail, hh.tail, h.bound]
      sortedBound := by rw [hh.bound, hh.tail, h.sortedBound]
      newest := by rw [hh.acknowledged, hh.msgTail]; exact h.newest
      queue := hqueue
      tasks := by rw [hh.tasks]; exact pairwise_enqueue h.tasks htask
      increasing := by rw [hsent]; exact h.increasing
      index := fun k sh hk => ?index
      known := fun k hk => ?known
      acknowledged := fun k hk => by rw [hh.acknowledged]; exact h.acknowledged k ((hin k).mp hk)
      unwrapped := by rw [hh.acknowledged, hh.tail]; exact h.unwrapped
      inOrder := fun k hk j hj => ?inOrder
      behind := fun k hk j hj => ?behind
      window := fun k hk => by rw [hh.acknowledged, hh.tail]; exact h.window k ((hin k).mp hk)
      upward := fun k hk j hj hkj => ?upward
      place := fun k hk => h.place_handed hh htask hsent ((hin k).mp hk) }, fun k hk hc => ?keeps⟩
  case index =>
    rw [hh.sorted] at hk
    split at hk
    · cases hk
    · split at hk
      · cases hk
      · exact h.index k sh hk
  case known =>
    rw [hh.acknowledged]
    rcases hk with hk | hk
    · exact h.known k (.inl (hh.mem_queued.mpr (.inr hk)))
    · rcases hoff k hk with rfl | hk
      · exact h.known k (.inl hi)
      · exact h.known k (.inr hk)
  case inOrder =>
    rcases hoff k hk with rfl | hk
    · obtain ⟨e, he, rfl⟩ := List.mem_map.mp hj
      exact hlt e he
    · exact h.inOrder k hk j (hh.mem_queued.mpr (.inr hj))
  case behind =>
    rw [hsent] at hk
    rw [hh.sorted] at hj
    split at hj
    · next hji => exact hji ▸ h.inOrder k (.inr (.inr hk)) i hi
    · split at hj
      · cases hj
      · exact h.behind k hk j hj
  case upward =>
    rw [hh.acknowledged] at hj
    exact (hin j).mpr (h.upward k ((hin k).mp hk) j hj hkj)
  case keeps =>
    rcases hc with hc | ⟨sh, hs⟩ | hs
    · exact .inl (hh.computed ▸ hc)
    · exact .inr (.inl ⟨sh, h.find?_handed hh ((hin k).mp hk) hs⟩)
    · exact .inr (.inr (hsent ▸ hs))

/-- The places reserved do not wrap where one is reserved for a computation queued. -/
theorem Inv.sortedBounded (h : s.Inv) {i : Index} (hi : i ∈ s.queued) :
    s.certifier.sortedComputedShares.Bounded := by
  rintro ⟨k, o⟩ he
  have hk : s.Offloaded k := by
    refine .inr (.inl ?_)
    rw [show s.certifier.sortedComputedShares.find? k = some o from OrdMap.mem_entries_iff.mp he]
    rfl
  rw [h.sortedBound]
  exact h.unwrapped k (h.known k (.inr hk)) i (h.known i (.inl hi)) (h.inOrder k hk i hi)

/-- So does each of the queue. -/
theorem Inv.offload {q : List (Index × M)} (h : s.Inv)
    (hq : s.certifier.queuedShareComputations = q) {c' : Certifier M}
    (hc : s.certifier.offload q = .ok c') :
    Inv { s with certifier := c' } ∧ Keeps s { s with certifier := c' } := by
  induction q generalizing s with
  | nil =>
      cases hc
      have he : { s.certifier with queuedShareComputations := [] } = s.certifier := by rw [← hq]
      rw [he]
      exact ⟨h, fun _ _ hc => hc⟩
  | cons e q ih =>
      obtain ⟨i, m⟩ := e
      rw [Certifier.offload] at hc
      split at hc
      · cases hc
      · next t b ht =>
          rw [← offload_queue _ q q] at hc
          let s₁ : Signer M := { s with certifier := { s.certifier with
            sortedComputedShares := t
            shareComputations := enqueue s.certifier.tail s.certifier.shareComputations (i, m)
            queuedShareComputations := q } }
          have hi : i ∈ s.queued := by rw [queued, hq]; exact List.mem_cons_self
          have hh : Handed s s₁ i m := by
            rw [TailMap.tryEmplaceWord_eq (h.sortedBounded hi)] at ht
            rcases TailMap.tryEmplace_cases ht with ⟨-, -, -, w, hw⟩ | ⟨-, -, -, hb, hf, -⟩
            · have hoff : s.Offloaded i := .inr (.inl (by rw [hw]; rfl))
              exact absurd (h.inOrder i hoff i hi) (Nat.lt_irrefl i)
            · exact ⟨rfl, rfl, hq, rfl, rfl, rfl, hb, hf, rfl, rfl⟩
          obtain ⟨h₁, hk₁⟩ := h.handed hh
          obtain ⟨h₂, hk₂⟩ := ih (s := s₁) h₁ rfl hc
          refine ⟨h₂, fun k hk hcomputed => hk₂ k hk (hk₁ k ?_ hcomputed)⟩
          have he : c'.msgTail = s.certifier.msgTail := (elsewhere_offload hc).msgTail
          change (s.certifier.msgTail.find? k).isSome
          rw [← he]
          exact hk

/-! ### Sending -/

/-- What polling the computed shares does: those below `bound` that the tail asks for are `shs`. -/
structure Polled (s s' : Certifier M) (shs : List Share) (bound : Index) : Prop where
  tail : s'.tail = s.tail
  msgTail : s'.msgTail = s.msgTail
  queue : s'.queuedShareComputations = s.queuedShareComputations
  tasks : s'.shareComputations = s.shareComputations
  computed : s'.computedShares = []
  sortedBound : s'.sortedComputedShares.tail = s.sortedComputedShares.tail
  sorted : ∀ k, s'.sortedComputedShares.find? k =
    if k < bound then none else s.sortComputed.find? k
  place : ∀ sh ∈ shs, ∃ k, s.sortComputed.find? k = some (some sh) ∧ k < bound
  sent : ∀ k o, (s.msgTail.find? k).isSome → s.sortComputed.find? k = some o → k < bound →
    ∃ sh, o = some sh ∧ sh ∈ shs
  gap : ∀ k, (s.msgTail.find? k).isSome → (s.sortComputed.find? k).isSome → bound ≤ k →
    ∃ first j, (s.msgTail.find? first).isSome ∧ first ≤ j ∧ bound ≤ j ∧
      s.sortComputed.find? j = some none
  increasing : (∀ k sh, s.sortComputed.find? k = some (some sh) → sh.msgIndex = k) →
    (shs.map (·.msgIndex)).Pairwise (· < ·)

theorem tail_sortComputed (s : Certifier M) :
    s.sortComputed.tail = s.sortedComputedShares.tail := by
  unfold sortComputed
  generalize s.sortedComputedShares = t
  induction s.computedShares generalizing t with
  | nil => rfl
  | cons sh shs ih => exact ih _

/-- **What a round sends.** -/
theorem polled_pollComputedShares (c : Certifier M) :
    ∃ bound, Polled c c.pollComputedShares (c.sends .pollComputedShares) bound := by
  have hentries : ∀ k o, (k, o) ∈ c.sortComputed.map.entries ↔ c.sortComputed.find? k = some o :=
    fun k o => OrdMap.mem_entries_iff
  have hl := c.sortComputed.map.sorted
  rw [sends]
  cases hfirst : c.msgTail.first? with
  | none =>
      have hpoll : c.pollComputedShares =
          { c with computedShares := [], sortedComputedShares := c.sortComputed } := by
        unfold pollComputedShares
        dsimp only
        rw [hfirst]
        rfl
      rw [hpoll]
      have hno : ∀ k, ¬ (c.msgTail.find? k).isSome := by
        intro k hk
        obtain ⟨d, hd⟩ := Option.isSome_iff_exists.mp hk
        have hm := OrdMap.mem_entries_iff.mpr (show c.msgTail.map.find? k = some d from hd)
        rw [List.head?_eq_none_iff.mp (show c.msgTail.map.entries.head? = none from hfirst)] at hm
        cases hm
      exact ⟨0, rfl, rfl, rfl, rfl, rfl, tail_sortComputed c, fun k => rfl,
        fun _ h => absurd h List.not_mem_nil, fun k _ hk => absurd hk (hno k),
        fun k hk => absurd hk (hno k), fun _ => .nil⟩
  | some e =>
      obtain ⟨first, d⟩ := e
      have hpoll : c.pollComputedShares =
          { c with
            computedShares := []
            sortedComputedShares :=
              c.sortComputed.popBelow (sendableEnd first c.sortComputed.map.entries)
            myShares := c.myShares ++ sendable first c.sortComputed.map.entries } := by
        unfold pollComputedShares
        dsimp only
        rw [hfirst]
        rfl
      rw [hpoll]
      have hf : c.msgTail.find? first = some d := OrdMap.find?_of_first? hfirst
      have hle : ∀ k, (c.msgTail.find? k).isSome → first ≤ k := by
        intro k hk
        obtain ⟨d', hd⟩ := Option.isSome_iff_exists.mp hk
        exact OrdMap.first?_le hfirst hd
      refine ⟨sendableEnd first c.sortComputed.map.entries,
        { tail := rfl
          msgTail := rfl
          queue := rfl
          tasks := rfl
          computed := rfl
          sortedBound := tail_sortComputed c
          sorted := fun k => TailMap.find?_popBelow ..
          place := fun sh hsh => ?_
          sent := fun k o hk ho hlt => ?_
          gap := fun k hk ho hge => ?_
          increasing := fun hi => ?_ }⟩
      · obtain ⟨k, hk, -, hlt⟩ := place_of_sendable hsh
        exact ⟨k, (hentries k _).mp hk, hlt⟩
      · exact sent_of_lt_sendableEnd hl ((hentries k o).mpr ho) (hle k hk) hlt
      · obtain ⟨o, ho⟩ := Option.isSome_iff_exists.mp ho
        obtain ⟨j, hj, hfj, -⟩ :=
          gap_of_sendableEnd_le ((hentries k o).mpr ho) (hle k hk) hge hl
        refine ⟨first, j, by rw [hf]; rfl, hfj, Nat.not_lt.mp fun hlt => ?_, (hentries j _).mp hj⟩
        obtain ⟨sh, hno, -⟩ := sent_of_lt_sendableEnd hl hj hfj hlt
        cases hno
      · exact pairwise_sendable hl fun k sh hk => hi k sh ((hentries k _).mp hk)

/-- The shares that come back are each in the place of its index. -/
theorem Inv.index_sortComputed (h : s.Inv) {k : Index} {sh : Share}
    (hk : s.certifier.sortComputed.find? k = some (some sh)) : sh.msgIndex = k := by
  rw [find?_sortComputed] at hk
  obtain ⟨o, ho, hor⟩ := Option.map_eq_some_iff.mp hk
  rcases Option.or_eq_some_iff.mp hor with hn | ⟨-, rfl⟩
  · exact msgIndex_of_lastShare hn
  · exact h.index k sh ho

theorem Polled.find? {c c' : Certifier M} {shs : List Share} {bound k : Index} {o : Option Share}
    (hp : Polled c c' shs bound) (hk : c'.sortedComputedShares.find? k = some o) :
    bound ≤ k ∧ c.sortComputed.find? k = some o := by
  rw [hp.sorted] at hk
  split at hk
  · cases hk
  · next hlt => exact ⟨Nat.not_lt.mp hlt, hk⟩

/-- What is sent was in its place. -/
theorem Inv.place_of_polled (h : s.Inv) {shs : List Share} {bound k : Index}
    (hp : Polled s.certifier s'.certifier shs bound) (hk : k ∈ shs.map (·.msgIndex)) :
    (s.certifier.sortedComputedShares.find? k).isSome ∧ k < bound := by
  obtain ⟨sh, hsh, rfl⟩ := List.mem_map.mp hk
  obtain ⟨k, hk, hlt⟩ := hp.place sh hsh
  obtain rfl := h.index_sortComputed hk
  exact ⟨isSome_of_sortComputed hk, hlt⟩

/-- Polling hands nothing to the pool. -/
theorem Inv.offloaded_of_polled (h : s.Inv) {shs : List Share} {bound k : Index}
    (hp : Polled s.certifier s'.certifier shs bound) (hrun : s'.runningShares = s.runningShares)
    (hsent : s'.sentIndices = s.sentIndices ++ shs.map (·.msgIndex)) (hk : s'.Offloaded k) :
    s.Offloaded k := by
  rcases hk with hk | hk | hk
  · refine .inl ?_
    simp only [underWay, List.mem_append, hp.tasks, hrun, hp.computed, List.map_nil,
      List.not_mem_nil, or_false] at hk ⊢
    exact .inl hk
  · obtain ⟨o, ho⟩ := Option.isSome_iff_exists.mp hk
    exact .inr (.inl (isSome_of_sortComputed (hp.find? ho).2))
  · rw [hsent] at hk
    rcases List.mem_append.mp hk with hk | hk
    · exact .inr (.inr hk)
    · exact .inr (.inl (h.place_of_polled hp hk).1)

/-- A share computed for a message of the tail is in its place, and there it stays until it is
sent. -/
theorem Inv.filled_polled (h : s.Inv) {shs : List Share} {bound k : Index} {sh : Share}
    (hp : Polled s.certifier s'.certifier shs bound)
    (hsent : s'.sentIndices = s.sentIndices ++ shs.map (·.msgIndex)) (hk : s.InTail k)
    (hs : s.certifier.sortComputed.find? k = some (some sh)) :
    s'.certifier.sortedComputedShares.find? k = some (some sh) ∨ k ∈ s'.sentIndices := by
  by_cases hlt : k < bound
  · obtain ⟨sh', ho, hm⟩ := hp.sent k _ hk hs hlt
    have hi : sh'.msgIndex = k := h.index_sortComputed (ho ▸ hs)
    refine .inr ?_
    rw [hsent, ← hi]
    exact List.mem_append_right _ (List.mem_map_of_mem hm)
  · exact .inl (by rw [hp.sorted, if_neg hlt, hs])

/-- What was reserved is still reserved, unless its share came back. -/
theorem Inv.place_polled (h : s.Inv) {shs : List Share} {bound k : Index}
    (hp : Polled s.certifier s'.certifier shs bound) (hrun : s'.runningShares = s.runningShares)
    (hsent : s'.sentIndices = s.sentIndices ++ shs.map (·.msgIndex)) (hk : s.InTail k) :
    s'.Place k := by
  have hsome : (∃ sh, s.certifier.sortComputed.find? k = some (some sh)) → s'.Place k := by
    rintro ⟨sh, hs⟩
    rcases h.filled_polled hp hsent hk hs with hs | hs
    · exact .sorted sh hs
    · exact .sent hs
  rcases h.place k hk with hq | ⟨hr, hu⟩ | ⟨sh, hs⟩ | hs
  · refine .queued ?_
    rw [queued, hp.queue]
    exact hq
  · by_cases hc : k ∈ s.certifier.computedShares.map (·.msgIndex)
    · exact hsome (exists_sortComputed_of_mem hc hr)
    · have hn : lastShare s.certifier.computedShares k = none :=
        Option.not_isSome_iff_eq_none.mp fun hn => hc (lastShare_isSome.mp hn)
      have hnone : s.certifier.sortComputed.find? k = some none := by
        rw [find?_sortComputed, hr, hn]
        rfl
      refine .reserved ?_ ?_
      · rw [hp.sorted, if_neg fun hlt => ?_, hnone]
        obtain ⟨sh, hno, -⟩ := hp.sent k none hk hnone hlt
        cases hno
      · simp only [underWay, List.mem_append] at hu ⊢
        rw [hp.tasks, hrun]
        exact .inl (hu.resolve_right hc)
  · exact hsome (exists_sortComputed_of_sorted hs)
  · exact .sent (hsent ▸ List.mem_append_left _ hs)

/-- No share computed is lost. -/
theorem Inv.computed_polled (h : s.Inv) {shs : List Share} {bound k : Index}
    (hp : Polled s.certifier s'.certifier shs bound)
    (hsent : s'.sentIndices = s.sentIndices ++ shs.map (·.msgIndex)) (hk : s.InTail k)
    (hc : s.Computed k) : s'.Computed k := by
  have hsome : (∃ sh, s.certifier.sortComputed.find? k = some (some sh)) → s'.Computed k := by
    rintro ⟨sh, hs⟩
    rcases h.filled_polled hp hsent hk hs with hs | hs
    · exact .inr (.inl ⟨sh, hs⟩)
    · exact .inr (.inr hs)
  rcases hc with hc | ⟨sh, hs⟩ | hs
  · have hoff : s.Offloaded k := .inl (List.mem_append_right _ hc)
    rcases h.place k hk with hq | ⟨hr, -⟩ | ⟨sh, hs⟩ | hs
    · exact absurd (h.inOrder k hoff k hq) (Nat.lt_irrefl k)
    · exact hsome (exists_sortComputed_of_mem hc hr)
    · exact hsome (exists_sortComputed_of_mem hc hs)
    · exact .inr (.inr (hsent ▸ List.mem_append_left _ hs))
  · exact hsome (exists_sortComputed_of_sorted hs)
  · exact .inr (.inr (hsent ▸ List.mem_append_left _ hs))

/-- What is sent is sent in order, once. -/
theorem Inv.polled {shs : List Share} {bound : Index} (h : s.Inv)
    (hp : Polled s.certifier s'.certifier shs bound) (hrun : s'.runningShares = s.runningShares)
    (hsent : s'.sent = s.sent ++ shs) (hack : s'.acknowledged = s.acknowledged) :
    s'.Inv ∧ Keeps s s' := by
  have hin : ∀ k, s'.InTail k ↔ s.InTail k := fun k => by rw [InTail, hp.msgTail]; rfl
  have hqueued : s'.queued = s.queued := by rw [queued, hp.queue]; rfl
  have hsent : s'.sentIndices = s.sentIndices ++ shs.map (·.msgIndex) := by
    rw [sentIndices, hsent, List.map_append]
    rfl
  have hoff : ∀ k, s'.Offloaded k → s.Offloaded k := fun k => h.offloaded_of_polled hp hrun hsent
  refine ⟨
    { bound := by rw [hp.msgTail, hp.tail, h.bound]
      sortedBound := by rw [hp.sortedBound, hp.tail, h.sortedBound]
      newest := by rw [hack, hp.msgTail]; exact h.newest
      queue := by rw [hp.queue]; exact h.queue
      tasks := by rw [hp.tasks]; exact h.tasks
      increasing := ?increasing
      index := fun k sh hk => h.index_sortComputed (hp.find? hk).2
      known := fun k hk => ?known
      acknowledged := fun k hk => by rw [hack]; exact h.acknowledged k ((hin k).mp hk)
      unwrapped := by rw [hack, hp.tail]; exact h.unwrapped
      inOrder := fun k hk => by rw [hqueued]; exact h.inOrder k (hoff k hk)
      behind := fun k hk j hj => ?behind
      window := fun k hk => by rw [hack, hp.tail]; exact h.window k ((hin k).mp hk)
      upward := fun k hk j hj hkj => ?upward
      place := fun k hk => h.place_polled hp hrun hsent ((hin k).mp hk) },
    fun k hk => h.computed_polled hp hsent ((hin k).mp hk)⟩
  case increasing =>
    rw [hsent]
    exact List.pairwise_append.mpr ⟨h.increasing, hp.increasing fun k sh => h.index_sortComputed,
      fun k hk j hj => h.behind k hk j (h.place_of_polled hp hj).1⟩
  case known =>
    rw [hqueued] at hk
    rw [hack]
    exact h.known k (hk.imp_right (hoff k))
  case behind =>
    obtain ⟨o, ho⟩ := Option.isSome_iff_exists.mp hj
    obtain ⟨hge, ho⟩ := hp.find? ho
    rw [hsent] at hk
    rcases List.mem_append.mp hk with hk | hk
    · exact h.behind k hk j (isSome_of_sortComputed ho)
    · exact (h.place_of_polled hp hk).2.trans_le hge
  case upward =>
    rw [hack] at hj
    exact (hin j).mpr (h.upward k ((hin k).mp hk) j hj hkj)

/-- With nothing left to compute, the sender stops at no message of the tail. -/
theorem Inv.drained {shs : List Share} {bound : Index} (h' : s'.Inv)
    (hp : Polled s.certifier s'.certifier shs bound) (hu : s'.underWay = []) : s'.Drained := by
  intro i hi
  rcases h'.place i hi with hq | ⟨-, hu'⟩ | ⟨sh, hs⟩ | hs
  · exact .inl hq
  · rw [hu] at hu'; cases hu'
  · have hin : ∀ k, (s.certifier.msgTail.find? k).isSome ↔ s'.InTail k := fun k => by
      rw [InTail, hp.msgTail]
    rw [hp.sorted] at hs
    split at hs
    · cases hs
    · next hlt =>
        obtain ⟨first, j, hf, hfj, hj, hgap⟩ :=
          hp.gap i ((hin i).mpr hi) (by rw [hs]; rfl) (Nat.not_lt.mp hlt)
        have hgap' : s'.certifier.sortedComputedShares.find? j = some none := by
          rw [hp.sorted, if_neg (Nat.not_lt.mpr hj), hgap]
        have hknown := h'.known j (.inr (.inr (.inl (by rw [hgap']; rfl))))
        have hjin := h'.upward first ((hin first).mp hf) j hknown hfj
        have hju := h'.useful.unblocked j hjin hgap'
        rw [hu] at hju
        cases hju
  · exact .inr hs

/-! ### Whole runs -/

/-- The steps that lose no share. -/
def Careful (s : Signer M) (op : SignerOp M) : Prop := s.Fresh op ∧ s.Trims op ∧ s.Unwrapped op

instance (s : Signer M) : DecidablePred s.Careful := fun _ =>
  inferInstanceAs (Decidable (_ ∧ _ ∧ _))

theorem next_op {op : Op M} (hop : ¬ ∃ k, op = .computeShare k) (h : Step cr s (.op op) s') :
    ∃ c', s.certifier.apply cr op = .ok c' ∧ s' =
      { s with
        certifier := c'
        acknowledged := s.acknowledged ++ op.acknowledges
        sent := s.sent ++ s.certifier.sends op } := by
  have hn : (do
      let certifier ← s.certifier.apply cr op
      return { s with
        certifier
        acknowledged := s.acknowledged ++ op.acknowledges
        sent := s.sent ++ s.certifier.sends op } : Except Error (Signer M)) = .ok s' := by
    cases op with
    | computeShare k => exact absurd ⟨k, rfl⟩ hop
    | _ => exact h
  obtain ⟨c', hc', he⟩ := bind_eq_ok.mp hn
  cases he
  exact ⟨c', hc', rfl⟩

/-- **Each step.** -/
theorem Inv.step (h : s.Inv) {op : SignerOp M} (hop : s.Careful op) (hs : Step cr s op s') :
    s'.Inv ∧ Keeps s s' := by
  have hmoves : ∀ {s'}, Moves s s' → s'.Inv ∧ Keeps s s' := fun hm => ⟨h.moves hm, hm.keeps⟩
  cases op with
  | startShare => cases hs; exact hmoves (moves_startShare s)
  | finishShare k => cases hs; exact hmoves (moves_finishShare s k)
  | reorder k => cases hs; exact hmoves (moves_reorder s k)
  | op op =>
      by_cases hc : ∃ k, op = .computeShare k
      · obtain ⟨k, rfl⟩ := hc
        cases hs
        exact hmoves (.refl s)
      · obtain ⟨c', hc', rfl⟩ := next_op hc hs
        have hother : (∀ i m, op ≠ .acknowledge i m) → op ≠ .pollComputedShares →
            ({ s with
              certifier := c'
              acknowledged := s.acknowledged ++ op.acknowledges
              sent := s.sent ++ s.certifier.sends op } : Signer M) = { s with certifier := c' } := by
          intro ha hp
          cases op with
          | acknowledge i m => exact absurd rfl (ha i m)
          | pollComputedShares => exact absurd rfl hp
          | _ => simp only [Op.acknowledges, sends, List.append_nil]
        cases op with
        | acknowledge i m =>
            obtain ⟨hfresh, htrims, hunwrapped⟩ := hop
            exact h.acknowledge hfresh htrims hunwrapped
              (appended_acknowledge (h.bounded hunwrapped) hc') rfl rfl (List.append_nil _)
        | pollComputedShares =>
            cases hc'
            obtain ⟨bound, hp⟩ := polled_pollComputedShares s.certifier
            exact h.polled hp rfl rfl (List.append_nil _)
        | offloadShareComputation =>
            rw [hother (fun _ _ => nofun) nofun]
            exact h.offload rfl hc'
        | forgetMessages o =>
            rw [hother (fun _ _ => nofun) nofun]
            cases hc'
            exact hmoves (moves_forget s o)
        | computeShare k => exact absurd ⟨k, rfl⟩ hc
        | _ =>
            rw [hother (fun _ _ => nofun) nofun]
            exact hmoves (moves_aside
              (aside_apply (by nofun) (by nofun) (by nofun) (by nofun) (by nofun) hc'))

theorem inv_of_reachable (h : Reachable Init (Step cr) Careful s) : s.Inv :=
  h.induct (P := Inv) (fun _ => Inv.init) fun _ _ _ _ hi hop hs => (hi.step hop hs).1

/-- **Shares are not lost**, in every run whose acknowledgments are careful: the shares of the
messages in the tail are on their way, and those sent are in order; a step loses no computed share
of a message in the tail; and polling when the pool is idle leaves the sender no message of the
tail to wait for, of those offloaded. -/
theorem useful_of_reachable (h : Reachable Init (Step cr) Careful s) :
    s.Useful ∧ (∀ op s', s.Careful op → Step cr s op s' → Keeps s s') ∧
      ∀ s', s.certifier.shareComputations = [] → s.runningShares = [] →
        Step cr s (.op .pollComputedShares) s' → s'.Drained := by
  have hi := inv_of_reachable h
  refine ⟨hi.useful, fun op s' hop hs => (hi.step hop hs).2, fun s' ht hr hs => ?_⟩
  have hop : s.Careful (.op .pollComputedShares) := ⟨trivial, trivial, trivial⟩
  have hi' := (hi.step hop hs).1
  obtain ⟨bound, hp⟩ := polled_pollComputedShares s.certifier
  cases hs
  refine hi'.drained hp ?_
  rw [underWay, hp.tasks, hp.computed, ht, hr]
  rfl

/-! ### A share dropped for being the first computed -/

namespace Example

open Certifier.Example (crypto)

/-- A signer with a tail of two messages. -/
def signer : Signer Bytes := { certifier := { tail := 2, identifier := 0, receivers := [0, 1] } }

theorem init_signer : signer.Init := ⟨_, ⟨2, 0, [0, 1], rfl⟩, rfl⟩

/-- Two workers sign the messages 0 and 1, and the second one ends first. -/
def ops : List (SignerOp Bytes) :=
  [.op (.toggleSlowPath true), .op (.acknowledge 0 [10]), .op (.acknowledge 1 [11]),
    .op .offloadShareComputation, .startShare, .startShare, .finishShare 1, .finishShare 0]

/-- Message 1 is in the tail and the sender waits for its share, which is dropped. -/
def Blocked (s : Signer Bytes) : Prop :=
  (s.certifier.msgTail.find? 1).isSome ∧
    s.certifier.sortedComputedShares.find? 1 = some none ∧ 1 ∉ s.underWay

instance : DecidablePred Blocked := fun _ => inferInstanceAs (Decidable (_ ∧ _ ∧ _))

end Example

/-- Acknowledging message 2 drops the share of message 1, and keeps the one of message 0. -/
theorem not_useful : ¬ ∀ (cr : Crypto Bytes) (s : Signer Bytes),
    Reachable Init (Step cr) Fresh s → s.Useful := by
  intro h
  obtain ⟨s, hs, hb⟩ : ∃ s : Signer Bytes, Reachable Init (Step Example.crypto) Fresh s ∧
      decide (Example.Blocked s) = true := exists_reachable Example.signer Example.init_signer
    (Example.ops ++ [.op (.acknowledge 2 [12]), .op .pollComputedShares]) (by decide +kernel)
  obtain ⟨htail, hnone, hno⟩ := of_decide_eq_true hb
  exact hno ((h _ s hs).unblocked 1 htail hnone)

/-- Polled before message 2 is acknowledged, both shares are sent. -/
theorem useful_signer : ∃ s : Signer Bytes,
    Reachable Init (Step Certifier.Example.crypto) Careful s ∧ s.Useful ∧
      s.sentIndices = [0, 1] := by
  obtain ⟨s, hs, hb⟩ : ∃ s : Signer Bytes, Reachable Init (Step Certifier.Example.crypto) Careful s ∧
      decide (s.sentIndices = [0, 1]) = true :=
    exists_reachable Example.signer Example.init_signer
      (Example.ops ++ [.op .pollComputedShares, .op (.acknowledge 2 [12])]) (by decide +kernel)
  exact ⟨s, hs, (useful_of_reachable hs).1, of_decide_eq_true hb⟩

end Signer

end Ubft.Certifier

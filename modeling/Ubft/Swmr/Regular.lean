import Ubft.Swmr.Register

/-!
# Swmr — regularity of the register of one host

A READ during which at most one WRITE is in flight finds the last WRITE that landed before it in
the one subslot, which does not change, and an older WRITE, nothing good or the next WRITE in the
other.  It returns the last WRITE completed before it or a later one, and not less than the READs
before it, as long as the incarnations do not wrap (`read_regular`): the reader compares them as
they are in memory.
-/

namespace Ubft.Swmr

namespace State

variable {allowCustom : Bool} {s s' : State} {l : Label}

/-! ### The property -/

/-- A READ returned a WRITE begun before it returned, not older than the last one completed
before it, and not less than the READs before it. -/
def Regular (s : State) (r : Result) : Prop :=
  (∃ n, r.since ≤ n ∧ n ≤ r.issued ∧ s.nth n = some ⟨r.incarnation + 2, r.value⟩) ∧
    ∀ e ∈ r.earlier, e ≤ r.incarnation

/-- At most one WRITE is in flight during a READ. -/
def Overlaps (s : State) : Label → Prop
  | .post => s.stage = .queued → ∀ rd ∈ s.reads, rd.posted = true → rd.sampled = false →
      rd.overlaps = 0
  | _ => True

/-- The incarnation of a default WRITE does not wrap. -/
def Increments (s : State) : Label → Prop
  | .write _ none => s.register.scheduled = false → s.register.incarnation + 1 < 2 ^ 32
  | _ => True

instance (s : State) : DecidablePred s.Overlaps
  | .post => inferInstanceAs (Decidable (_ → ∀ rd ∈ _, _ → _ → _))
  | .write _ _ | .tear | .land | .complete | .read | .postRead _ | .sample _ _ | .pollRead _ _ =>
    inferInstanceAs (Decidable True)

instance (s : State) : DecidablePred s.Increments
  | .write _ none => inferInstanceAs (Decidable (_ → _))
  | .write _ (some _) | .post | .tear | .land | .complete | .read | .postRead _ | .sample _ _
  | .pollRead _ _ => inferInstanceAs (Decidable True)

/-! ### The invariant -/

/-- The counts, by the stage of the last WRITE. -/
def Staged (s : State) : Prop :=
  match s.stage with
  | .idle => s.register.scheduled = false ∧ s.written.length = s.landed ∧ s.completed = s.landed
  | .landed =>
    s.register.scheduled = true ∧ s.written.length = s.landed ∧ s.completed + 1 = s.landed
  | .queued | .posted | .torn =>
    s.register.scheduled = true ∧ s.written.length = s.landed + 1 ∧ s.completed = s.landed

/-- WRITE `b` was the last one in memory when the READ was posted. -/
structure Based (s : State) (rd : Read) (b : Nat) : Prop where
  since : rd.since ≤ b
  pos : 2 ≤ b
  landed : b ≤ s.landed
  earlier : ∀ e ∈ rd.earlier, ∀ c ∈ s.nth b, e + 2 ≤ c.incarnation
  own : ∀ x ∈ rd.samples (b % 2), x = s.nth b
  other : ∀ c, rd.samples ((b + 1) % 2) = some (some c) →
    s.nth (b - 1) = some c ∨ b + 1 ≤ s.landed ∧ s.nth (b + 1) = some c
  stable : rd.sampled = false → s.landed = b ∨ s.landed = b + 1 ∧ s.inFlight = false
  fresh : rd.sampled = false → rd.overlaps = 0 → s.landed = b ∧ s.inFlight = false

/-- What a READ has seen so far, against what was written. -/
structure Follows (s : State) (rd : Read) : Prop where
  since : rd.since ≤ s.completed
  earlier : ∀ e ∈ rd.earlier, ∀ c ∈ s.nth s.landed, e + 2 ≤ c.incarnation
  samples : rd.posted = false → ∀ i, rd.samples i = none
  based : rd.posted = true → ∃ b, Based s rd b

/-- A READ that looked at a subslot was posted. -/
theorem Follows.posted_of_sample {rd : Read} {i : Nat} {x : Option Subslot} (h : Follows s rd)
    (hx : rd.samples i = some x) : rd.posted = true := by
  refine Bool.not_eq_false _ ▸ fun hn => ?_
  rw [h.samples hn] at hx
  cases hx

/-- The subslots hold the last two WRITEs, but for the one that is landing. -/
structure Inv (s : State) : Prop where
  pos : 2 ≤ s.landed
  staged : s.Staged
  increasing : s.written.Pairwise fun a b => a.incarnation < b.incarnation
  last : s.nth s.written.length = some ⟨s.register.incarnation, s.register.content⟩
  small : s.register.incarnation < 2 ^ 32
  large : ∀ n c, 2 ≤ n → s.nth n = some c → 2 ≤ c.incarnation
  subslot : s.register.remoteSubslot = s.written.length % 2
  newest : s.memory (s.landed % 2) = s.nth s.landed
  older : s.memory ((s.landed + 1) % 2) = if s.stage = .torn then none else s.nth (s.landed - 1)
  reads : ∀ rd ∈ s.reads, s.Follows rd
  results : ∀ r ∈ s.results, s.Regular r ∧ ∀ c ∈ s.nth s.landed, r.incarnation + 2 ≤ c.incarnation

/-! ### The WRITEs -/

/-- A WRITE that is there was written. -/
theorem lt_length_of_nth {n : Nat} {c : Subslot} (h : s.nth n = some c) :
    n - 1 < s.written.length := (List.getElem?_eq_some_iff.mp h).1

theorem exists_nth {n : Nat} (h : n ≤ s.written.length) (hp : 1 ≤ n) : ∃ c, s.nth n = some c :=
  ⟨_, List.getElem?_eq_getElem (Nat.lt_of_lt_of_le (Nat.sub_lt hp Nat.one_pos) h)⟩

namespace Inv

theorem landed_le (h : Inv s) : s.landed ≤ s.written.length := by
  have hs := h.staged
  unfold Staged at hs
  split at hs <;> omega

theorem completed_le (h : Inv s) : s.completed ≤ s.landed := by
  have hs := h.staged
  unfold Staged at hs
  split at hs <;> omega

/-- Later WRITEs have greater incarnations. -/
theorem lt (h : Inv s) {m n : Nat} {a b : Subslot} (ha : s.nth m = some a)
    (hb : s.nth n = some b) (hm : 1 ≤ m) (hmn : m < n) : a.incarnation < b.incarnation := by
  obtain ⟨hi, rfl⟩ := List.getElem?_eq_some_iff.mp ha
  obtain ⟨hj, rfl⟩ := List.getElem?_eq_some_iff.mp hb
  exact List.pairwise_iff_getElem.mp h.increasing _ _ hi hj (by omega)

/-- Later WRITEs have higher incarnations. -/
theorem le (h : Inv s) {m n : Nat} {a b : Subslot} (ha : s.nth m = some a)
    (hb : s.nth n = some b) (hm : 1 ≤ m) (hmn : m ≤ n) : a.incarnation ≤ b.incarnation := by
  rcases Nat.lt_or_eq_of_le hmn with hlt | rfl
  · exact Nat.le_of_lt (h.lt ha hb hm hlt)
  · rw [ha] at hb
    cases hb
    exact Nat.le_refl _

/-- Incarnations are on 32 bits. -/
theorem lt_pow (h : Inv s) {n : Nat} {c : Subslot} (hc : s.nth n = some c) (hn : 1 ≤ n) :
    c.incarnation < 2 ^ 32 := by
  have hlt := lt_length_of_nth hc
  rcases Nat.lt_or_eq_of_le (Nat.le_of_pred_lt hlt) with hl | rfl
  · exact Nat.lt_trans (h.lt hc h.last hn hl) h.small
  · rw [h.last] at hc
    cases hc
    exact h.small

end Inv

/-- `s'` comes after `s`. -/
structure Later (s s' : State) : Prop where
  kept : ∀ n c, s.nth n = some c → s'.nth n = some c
  landed : s.landed ≤ s'.landed
  completed : s.completed ≤ s'.completed
  top : ∀ c' ∈ s'.nth s'.landed, ∃ c ∈ s.nth s.landed, c.incarnation ≤ c'.incarnation

/-- The WRITEs are the same, and no other one landed. -/
theorem Later.of_same (hn : ∀ n c, s.nth n = some c → s'.nth n = some c)
    (hl : s'.landed = s.landed) (hc : s.completed ≤ s'.completed) (hi : Inv s) : Later s s' := by
  refine ⟨hn, Nat.le_of_eq hl.symm, hc, fun c' hc' => ?_⟩
  obtain ⟨c, hx⟩ := exists_nth hi.landed_le (Nat.le_of_succ_le hi.pos)
  rw [hl, hn _ _ hx] at hc'
  cases hc'
  exact ⟨_, hx, Nat.le_refl _⟩

theorem Later.regular (h : Later s s') {r : Result} (hr : s.Regular r) : s'.Regular r := by
  obtain ⟨⟨n, hs, hi, hn⟩, he⟩ := hr
  exact ⟨⟨n, hs, hi, h.kept n _ hn⟩, he⟩

/-- A result is no newer than what landed. -/
theorem Later.results (h : Later s s') (hi : Inv s) {r : Result} (hr : r ∈ s.results) :
    s'.Regular r ∧ ∀ c ∈ s'.nth s'.landed, r.incarnation + 2 ≤ c.incarnation := by
  obtain ⟨hreg, htop⟩ := hi.results r hr
  refine ⟨h.regular hreg, fun c' hc' => ?_⟩
  obtain ⟨c, hc, hle⟩ := h.top c' hc'
  exact Nat.le_trans (htop c hc) hle

/-- A READ that goes on as before, as long as its first subslot does not change. -/
theorem Later.based (h : Later s s') (hi : Inv s) {rd rd' : Read} {b : Nat} (hb : Based s rd b)
    (hs : rd'.since = rd.since) (he : rd'.earlier = rd.earlier) (hx : rd'.samples = rd.samples)
    (hst : rd'.sampled = false → s'.landed = b ∨ s'.landed = b + 1 ∧ s'.inFlight = false)
    (hf : rd'.sampled = false → rd'.overlaps = 0 → s'.landed = b ∧ s'.inFlight = false) :
    Based s' rd' b := by
  obtain ⟨c, hc⟩ := exists_nth (Nat.le_trans hb.landed hi.landed_le) (Nat.le_of_succ_le hb.pos)
  have hc' := h.kept b c hc
  refine ⟨hs ▸ hb.since, hb.pos, Nat.le_trans hb.landed h.landed, ?_, ?_, fun d hd => ?_, hst, hf⟩
  · rw [he, hc']
    exact fun e hm x hx => hb.earlier e hm x (hc ▸ hx)
  · rw [hx, hc', ← hc]
    exact hb.own
  · rw [hx] at hd
    rcases hb.other d hd with hd | ⟨hl, hd⟩
    · exact .inl (h.kept _ _ hd)
    · exact .inr ⟨Nat.le_trans hl h.landed, h.kept _ _ hd⟩

theorem Later.follows (h : Later s s') {rd rd' : Read} (hf : s.Follows rd)
    (hs : rd'.since = rd.since) (he : rd'.earlier = rd.earlier)
    (hx : rd'.posted = false → ∀ i, rd'.samples i = none)
    (hb : rd'.posted = true → ∃ b, Based s' rd' b) : s'.Follows rd' := by
  refine ⟨hs ▸ Nat.le_trans hf.since h.completed, fun e hm c' hc' => ?_, hx, hb⟩
  obtain ⟨c, hc, hle⟩ := h.top c' hc'
  exact Nat.le_trans (hf.earlier e (he ▸ hm) c hc) hle

/-! ### The writer -/

/-- **What `write` does**: nothing, or it schedules a WRITE. -/
theorem write_cases {v : Bytes} {custom : Option UInt32}
    (h : s.write allowCustom v custom = .ok s') :
    s' = s ∨ s.register.scheduled = false ∧ ∃ inc x,
      s' = { s with
        register := ⟨inc, v, true, (s.register.remoteSubslot + 1) % 2⟩
        stage := .queued
        written := s.written ++ [⟨x, v⟩] } ∧
      (custom = none ∧ inc = (s.register.incarnation + 1) % 2 ^ 32 ∧ x = s.nextIncarnation ∨
        ∃ u, custom = some u ∧ inc = (u.toNat + 2) % 2 ^ 32 ∧ s.register.incarnation < inc ∧
          x = u.toNat + 2) := by
  unfold write at h
  split at h
  · cases h; exact .inl rfl
  · next hs =>
      refine .inr ⟨Bool.eq_false_iff.mpr hs, ?_⟩
      obtain ⟨r, hr, h⟩ := bind_eq_ok.mp h
      cases h
      cases custom with
      | none =>
          cases hr
          exact ⟨_, _, rfl, .inl ⟨rfl, rfl, rfl⟩⟩
      | some u =>
          simp only [Register.incarnate] at hr
          split at hr
          · unfold Register.setIncarnation at hr
            simp only at hr
            split at hr
            · cases hr
            · next hlt =>
                cases hr
                exact ⟨_, _, rfl, .inr ⟨u, rfl, rfl, Nat.lt_of_not_le hlt, rfl⟩⟩
          · cases hr

/-- When nothing is scheduled, everything landed. -/
theorem Inv.idle (h : Inv s) (hs : s.register.scheduled = false) :
    s.stage = .idle ∧ s.written.length = s.landed ∧ s.completed = s.landed := by
  have hst := h.staged
  unfold Staged at hst
  split at hst
  · next he => exact ⟨he, hst.2⟩
  all_goals
    rw [hs] at hst
    cases hst.1

/-- A default WRITE is meant to have the next incarnation. -/
theorem Inv.nextIncarnation (h : Inv s) : s.nextIncarnation = s.register.incarnation + 1 := by
  have hl := h.last
  rw [nth, ← List.getLast?_eq_getElem?] at hl
  rw [State.nextIncarnation, hl]
  rfl

/-- The incarnation of a WRITE is the one the caller means, and greater than the last. -/
theorem Inv.meant (h : Inv s) {v : Bytes} {custom : Option UInt32} {inc x : Nat}
    (hg : s.Increments (.write v custom)) (hs : s.register.scheduled = false)
    (hc : custom = none ∧ inc = (s.register.incarnation + 1) % 2 ^ 32 ∧ x = s.nextIncarnation ∨
      ∃ u, custom = some u ∧ inc = (u.toNat + 2) % 2 ^ 32 ∧ s.register.incarnation < inc ∧
        x = u.toNat + 2) : x = inc ∧ s.register.incarnation < inc ∧ inc < 2 ^ 32 := by
  rcases hc with ⟨rfl, rfl, rfl⟩ | ⟨u, rfl, rfl, hlt, rfl⟩
  · have hw : s.register.incarnation + 1 < 2 ^ 32 := hg hs
    rw [h.nextIncarnation, Nat.mod_eq_of_lt hw]
    exact ⟨rfl, Nat.lt_succ_self _, hw⟩
  · have hu : u.toNat < 2 ^ 32 := u.toNat_lt
    have hl := h.large _ _ (Nat.le_trans h.pos h.landed_le) h.last
    have hw : u.toNat + 2 < 2 ^ 32 := by
      -- otherwise the incarnation wraps to 0 or 1, which is refused
      by_contra hge
      rw [Nat.mod_eq_sub_mod (Nat.le_of_not_lt hge), Nat.mod_eq_of_lt (by omega)] at hlt
      simp only at hl
      omega
    rw [Nat.mod_eq_of_lt hw] at hlt ⊢
    exact ⟨rfl, hlt, hw⟩

/-- The new WRITE has the highest incarnation. -/
theorem Inv.write (h : Inv s) {v : Bytes} {custom : Option UInt32}
    (hg : s.Increments (.write v custom)) (hw : s.write allowCustom v custom = .ok s') :
    Inv s' := by
  rcases write_cases hw with rfl | ⟨hs, inc, x, rfl, hc⟩
  · exact h
  · obtain ⟨rfl, hlt, hsm⟩ := h.meant hg hs hc
    obtain ⟨hidle, hlen, hcomp⟩ := h.idle hs
    have happ : ∀ n c, s.nth n = some c → (s.written ++ [Subslot.mk x v])[n - 1]? = some c :=
      fun n c hc => (List.getElem?_append_left (lt_length_of_nth hc)).trans hc
    have hnew : (s.written ++ [Subslot.mk x v])[s.written.length]? = some ⟨x, v⟩ := by
      rw [List.getElem?_append_right (Nat.le_refl _), Nat.sub_self]
      rfl
    -- what landed is numbered as before
    have hold : ∀ n, 1 ≤ n → n ≤ s.landed → (s.written ++ [Subslot.mk x v])[n - 1]? = s.nth n := by
      intro n hn hl
      obtain ⟨c, hc⟩ := exists_nth (hlen ▸ hl) hn
      rw [happ n c hc, hc]
    have hl : Later s { s with
        register := ⟨x, v, true, (s.register.remoteSubslot + 1) % 2⟩
        stage := .queued
        written := s.written ++ [Subslot.mk x v] } := .of_same happ rfl (Nat.le_refl _) h
    refine ⟨h.pos, ⟨rfl, ?_, hcomp⟩, ?_, ?_, hsm, ?_, ?_, ?_, ?_, fun rd hm => ?_,
      fun r hr => hl.results h hr⟩
    · rw [List.length_append, List.length_singleton, hlen]
    · refine List.pairwise_append.mpr ⟨h.increasing, List.pairwise_singleton _ _, ?_⟩
      intro a ha b hb
      rw [List.mem_singleton.mp hb]
      obtain ⟨i, hi, rfl⟩ := List.mem_iff_getElem.mp ha
      refine Nat.lt_of_le_of_lt ?_ hlt
      rcases Nat.lt_or_eq_of_le (Nat.succ_le_of_lt hi) with hi' | hi'
      · exact Nat.le_of_lt (h.lt (m := i + 1) (List.getElem?_eq_getElem hi) h.last (by omega) hi')
      · have hlast := h.last
        rw [nth, ← hi', Nat.succ_sub_one, List.getElem?_eq_getElem hi] at hlast
        exact Nat.le_of_eq (congrArg Subslot.incarnation (Option.some.inj hlast))
    · change (s.written ++ [Subslot.mk x v])[(s.written ++ [Subslot.mk x v]).length - 1]? = _
      rw [List.length_append, List.length_singleton, Nat.add_sub_cancel]
      exact hnew
    · intro n c hn hc
      by_cases hle : n ≤ s.landed
      · exact h.large n c hn ((hold n (Nat.le_of_succ_le hn) hle).symm.trans hc)
      · have hn' : n - 1 = s.written.length := by
          have := (List.getElem?_eq_some_iff.mp hc).1
          rw [List.length_append, List.length_singleton] at this
          omega
        change (s.written ++ [Subslot.mk x v])[n - 1]? = _ at hc
        rw [hn', hnew] at hc
        cases hc
        have := h.large _ _ (Nat.le_trans h.pos h.landed_le) h.last
        exact Nat.le_trans this (Nat.le_of_lt hlt)
    · change (s.register.remoteSubslot + 1) % 2 = (s.written ++ [Subslot.mk x v]).length % 2
      rw [List.length_append, List.length_singleton, h.subslot]
      omega
    · exact h.newest.trans (hold _ (Nat.le_of_succ_le h.pos) (Nat.le_refl _)).symm
    · have ho := h.older
      rw [hidle, if_neg nofun] at ho
      have hp := h.pos
      exact ho.trans (hold _ (by omega) (Nat.sub_le _ _)).symm
    · have hf := h.reads rd hm
      refine hl.follows hf rfl rfl hf.samples fun hp => ?_
      obtain ⟨b, hb⟩ := hf.based hp
      refine ⟨b, hl.based h hb rfl rfl rfl (fun hn => ?_) fun hn ho => ⟨(hb.fresh hn ho).1, rfl⟩⟩
      -- a READ on its way sees the same memory
      rcases hb.stable hn with he | ⟨he, -⟩
      · exact .inl he
      · exact .inr ⟨he, rfl⟩

theorem Inv.post (h : Inv s) (hg : s.Overlaps .post) : Inv s.post := by
  unfold State.post
  split
  · next hq =>
      have hst := h.staged
      simp only [Staged, hq] at hst
      have ho := h.older
      rw [hq, if_neg nofun] at ho
      have hl : Later s { s with stage := .posted, reads := s.reads.map overlap } :=
        .of_same (fun _ _ h => h) rfl (Nat.le_refl _) h
      refine ⟨h.pos, hst, h.increasing, h.last, h.small, h.large, h.subslot, h.newest, ho,
        fun rd' hm => ?_, fun r hr => hl.results h hr⟩
      obtain ⟨rd, hrd, rfl⟩ := List.mem_map.mp hm
      have hf := h.reads rd hrd
      by_cases hp : rd.posted = true ∧ rd.sampled = false
      · -- the READ overlapped no other WRITE
        obtain ⟨b, hb⟩ := hf.based hp.1
        have he : overlap rd = { rd with overlaps := rd.overlaps + 1 } := by
          rw [overlap, hp.1, hp.2]
          rfl
        rw [he]
        obtain ⟨hlb, -⟩ := hb.fresh hp.2 (hg hq rd hrd hp.1 hp.2)
        exact hl.follows hf rfl rfl hf.samples fun _ => ⟨b, hl.based h hb rfl rfl rfl
          (fun _ => .inl hlb) fun _ hx => absurd hx (Nat.succ_ne_zero _)⟩
      · have he : overlap rd = rd := by
          rw [overlap, if_neg]
          simpa using hp
        rw [he]
        refine hl.follows hf rfl rfl hf.samples fun hx => ?_
        obtain ⟨b, hb⟩ := hf.based hx
        exact ⟨b, hl.based h hb rfl rfl rfl (fun hn => absurd ⟨hx, hn⟩ hp)
          fun hn => absurd ⟨hx, hn⟩ hp⟩
  · exact h

/-- The subslot that a WRITE in flight changes is not that of the last one that landed. -/
theorem Inv.target (h : Inv s) (hl : s.written.length = s.landed + 1) :
    s.register.remoteSubslot = (s.landed + 1) % 2 := hl ▸ h.subslot

theorem Inv.tear (h : Inv s) : Inv s.tear := by
  unfold State.tear
  split
  · next hq =>
      have hst := h.staged
      simp only [Staged, hq] at hst
      have hl : Later s { s with
          stage := .torn
          memory := Function.update s.memory s.register.remoteSubslot none } :=
        .of_same (fun _ _ h => h) rfl (Nat.le_refl _) h
      refine ⟨h.pos, hst, h.increasing, h.last, h.small, h.large, h.subslot, ?_, ?_,
        fun rd hm => ?_, fun r hr => hl.results h hr⟩
      · rw [h.target hst.2.1]
        change Function.update s.memory _ none (s.landed % 2) = s.nth s.landed
        rw [Function.update_of_ne (by omega)]
        exact h.newest
      · rw [h.target hst.2.1]
        exact Function.update_self ..
      · have hf := h.reads rd hm
        refine hl.follows hf rfl rfl hf.samples fun hp => ?_
        obtain ⟨b, hb⟩ := hf.based hp
        have hin : s.inFlight = true := by rw [inFlight, hq]; rfl
        refine ⟨b, hl.based h hb rfl rfl rfl (fun hn => ?_) fun hn ho => ?_⟩
        · rcases hb.stable hn with he | ⟨-, hx⟩
          · exact .inl he
          · rw [hin] at hx
            cases hx
        · have hx := (hb.fresh hn ho).2
          rw [hin] at hx
          cases hx
  · exact h

theorem Inv.land (h : Inv s) : Inv s.land := by
  unfold State.land
  split
  · next hq =>
      have hst := h.staged
      simp only [Staged, hq] at hst
      obtain ⟨hs, hlen, hcomp⟩ := hst
      have hp := h.pos
      have hlast := h.last
      rw [hlen] at hlast
      obtain ⟨c, hc⟩ := exists_nth h.landed_le (Nat.le_of_succ_le hp)
      have hl : Later s { s with
          stage := .landed
          memory := Function.update s.memory s.register.remoteSubslot
            (some ⟨s.register.incarnation, s.register.content⟩)
          landed := s.landed + 1 } := by
        refine ⟨fun _ _ h => h, Nat.le_succ _, Nat.le_refl _, fun c' hc' => ⟨c, hc, ?_⟩⟩
        exact Nat.le_of_lt (h.lt hc hc' (Nat.le_of_succ_le hp) (Nat.lt_succ_self _))
      refine ⟨Nat.le_succ_of_le hp, ⟨hs, hlen, by rw [← hcomp]⟩, h.increasing, h.last, h.small,
        h.large, h.subslot, ?_, ?_, fun rd hm => ?_, fun r hr => hl.results h hr⟩
      · rw [h.target hlen]
        exact (Function.update_self ..).trans hlast.symm
      · rw [h.target hlen, if_neg nofun]
        -- the older subslot is the one that was the newest
        have he : (s.landed + 1 + 1) % 2 = s.landed % 2 := by omega
        change Function.update s.memory _ _ ((s.landed + 1 + 1) % 2) = s.nth s.landed
        rw [he, Function.update_of_ne (by omega)]
        exact h.newest
      · have hf := h.reads rd hm
        refine hl.follows hf rfl rfl hf.samples fun hx => ?_
        obtain ⟨b, hb⟩ := hf.based hx
        have hin : s.inFlight = true := by rw [inFlight, hq]; rfl
        refine ⟨b, hl.based h hb rfl rfl rfl (fun hn => ?_) fun hn ho => ?_⟩
        · -- a READ that saw the last WRITE landed may see one WRITE more
          rcases hb.stable hn with he | ⟨-, hx⟩
          · exact .inr ⟨congrArg (· + 1) he, rfl⟩
          · rw [hin] at hx
            cases hx
        · have hx := (hb.fresh hn ho).2
          rw [hin] at hx
          cases hx
  · exact h

theorem Inv.complete (h : Inv s) : Inv s.complete := by
  unfold State.complete
  split
  · next hq =>
      have hst := h.staged
      simp only [Staged, hq] at hst
      have ho := h.older
      rw [hq, if_neg nofun] at ho
      have hl : Later s { s with
          stage := .idle
          register := { s.register with scheduled := false }
          completed := s.completed + 1 } := .of_same (fun _ _ h => h) rfl (Nat.le_succ _) h
      refine ⟨h.pos, ⟨rfl, hst.2⟩, h.increasing, h.last, h.small, h.large, h.subslot, h.newest, ho,
        fun rd hm => ?_, fun r hr => hl.results h hr⟩
      have hf := h.reads rd hm
      refine hl.follows hf rfl rfl hf.samples fun hx => ?_
      obtain ⟨b, hb⟩ := hf.based hx
      refine ⟨b, hl.based h hb rfl rfl rfl (fun hn => ?_) fun hn ho => ⟨(hb.fresh hn ho).1, rfl⟩⟩
      rcases hb.stable hn with he | ⟨he, -⟩
      · exact .inl he
      · exact .inr ⟨he, rfl⟩
  · exact h

/-! ### The READs -/

/-- The writer and the memory do not change. -/
theorem Inv.of_reads (h : Inv s) {reads : List Read} {results : List Result}
    (hr : ∀ rd ∈ reads, s.Follows rd)
    (hx : ∀ r ∈ results, s.Regular r ∧ ∀ c ∈ s.nth s.landed, r.incarnation + 2 ≤ c.incarnation) :
    Inv { s with reads, results } := by
  refine ⟨h.pos, h.staged, h.increasing, h.last, h.small, h.large, h.subslot, h.newest, h.older,
    fun rd hm => ?_, hx⟩
  obtain ⟨hs, he, hp, hb⟩ := hr rd hm
  refine ⟨hs, he, hp, fun hx => ?_⟩
  obtain ⟨b, h₁, h₂, h₃, h₄, h₅, h₆, h₇, h₈⟩ := hb hx
  exact ⟨b, h₁, h₂, h₃, h₄, h₅, h₆, h₇, h₈⟩

theorem Inv.set (h : Inv s) {k : Nat} {rd : Read} (hr : s.Follows rd) :
    Inv { s with reads := s.reads.set k rd } := by
  refine h.of_reads (fun rd' hm => ?_) h.results
  rcases List.mem_or_eq_of_mem_set hm with hm | rfl
  · exact h.reads rd' hm
  · exact hr

theorem Inv.read (h : Inv s) : Inv s.read := by
  refine h.of_reads (fun rd hm => ?_) h.results
  rcases List.mem_append.mp hm with hm | hm
  · exact h.reads rd hm
  · cases List.mem_singleton.mp hm
    refine ⟨Nat.le_refl _, fun e he c hc => ?_, fun _ _ => rfl, nofun⟩
    obtain ⟨r, hr, rfl⟩ := List.mem_map.mp he
    exact (h.results r hr).2 c hc

/-- A READ is posted, based on what completed. -/
theorem Inv.postRead (h : Inv s) (k : Nat) : Inv (s.postRead k) := by
  unfold State.postRead
  split
  · exact h
  · next rd hk =>
      split
      · exact h
      · next hp =>
          have hf := h.reads rd (List.mem_of_getElem? hk)
          have hs := hf.samples (Bool.eq_false_iff.mpr hp)
          refine h.set ⟨hf.since, hf.earlier, nofun, fun _ => ⟨s.landed, ?_⟩⟩
          refine ⟨Nat.le_trans hf.since h.completed_le, h.pos, Nat.le_refl _, hf.earlier, ?_, ?_,
            fun _ => .inl rfl, fun _ ho => ⟨rfl, ?_⟩⟩
          · intro x hx
            rw [hs] at hx
            cases hx
          · intro c hc
            rw [hs] at hc
            cases hc
          · by_contra hin
            rw [if_pos (by simpa using hin)] at ho
            cases ho

/-- What the memory holds for a READ that looks at it. -/
theorem Based.memory {rd : Read} {b : Nat} (hb : Based s rd b) (h : Inv s)
    (hn : rd.sampled = false) : s.memory (b % 2) = s.nth b ∧
      ∀ c, s.memory ((b + 1) % 2) = some c →
        s.nth (b - 1) = some c ∨ b + 1 ≤ s.landed ∧ s.nth (b + 1) = some c := by
  rcases hb.stable hn with rfl | ⟨hl, hin⟩
  · refine ⟨h.newest, fun c hc => .inl ?_⟩
    rw [h.older] at hc
    split at hc
    · cases hc
    · exact hc
  · have ho := h.older
    have hnt : s.stage ≠ .torn := by
      intro ht
      rw [inFlight, ht] at hin
      cases hin
    rw [if_neg hnt, hl, Nat.add_sub_cancel] at ho
    have he : (b + 1 + 1) % 2 = b % 2 := by omega
    rw [he] at ho
    refine ⟨ho, fun c hc => .inr ⟨Nat.le_of_eq hl.symm, ?_⟩⟩
    rw [← hl, h.newest] at hc
    rw [← hl]
    exact hc

theorem sampled_of_none {rd : Read} {i : Nat} (h : rd.samples i = none) (hi : i < 2) :
    rd.sampled = false := by
  unfold Read.sampled
  have hi' : i = 0 ∨ i = 1 := by omega
  rcases hi' with rfl | rfl
  · rw [h]; rfl
  · rw [h]; exact Bool.and_false _

theorem sampled_update {rd : Read} {i : Nat} {x : Option Subslot}
    (h : { rd with samples := Function.update rd.samples i (some x) }.sampled = false) :
    rd.sampled = false := by
  have hsome : ∀ j, (rd.samples j).isSome = true →
      (Function.update rd.samples i (some x) j).isSome = true := by
    intro j hj
    by_cases hji : j = i
    · rw [hji, Function.update_self]; rfl
    · rwa [Function.update_of_ne hji]
  refine Bool.eq_false_iff.mpr fun hs => ?_
  obtain ⟨h₀, h₁⟩ := Bool.and_eq_true_iff.mp hs
  rw [Read.sampled, hsome 0 h₀, hsome 1 h₁] at h
  cases h

/-- A READ looks at a subslot. -/
theorem Based.sample {rd : Read} {b i : Nat} (hb : Based s rd b) (h : Inv s)
    (hi : rd.samples i = none) :
    Based s { rd with samples := Function.update rd.samples i (some (s.memory i)) } b := by
  refine ⟨hb.since, hb.pos, hb.landed, hb.earlier, fun x hx => ?_, fun c hc => ?_,
    fun hn => hb.stable (sampled_update hn), fun hn => hb.fresh (sampled_update hn)⟩
  · by_cases he : b % 2 = i
    · subst he
      have hx' := (Function.update_self (b % 2) _ rd.samples).symm.trans hx
      cases hx'
      exact (hb.memory h (sampled_of_none hi (Nat.mod_lt _ Nat.two_pos))).1
    · exact hb.own x ((Function.update_of_ne he _ rd.samples).symm.trans hx)
  · by_cases he : (b + 1) % 2 = i
    · subst he
      have hx := (Function.update_self ((b + 1) % 2) _ rd.samples).symm.trans hc
      exact (hb.memory h (sampled_of_none hi (Nat.mod_lt _ Nat.two_pos))).2 c (Option.some.inj hx)
    · exact hb.other c ((Function.update_of_ne he _ rd.samples).symm.trans hc)

/-- A subslot is sampled: whole, or torn. -/
theorem Inv.sample (h : Inv s) (k i : Nat) : Inv (s.sample k i) := by
  unfold State.sample
  split
  · exact h
  · next rd hk =>
      split
      · next hg =>
          obtain ⟨hp, hi⟩ := Bool.and_eq_true_iff.mp hg
          rw [Option.isNone_iff_eq_none] at hi
          have hf := h.reads rd (List.mem_of_getElem? hk)
          obtain ⟨b, hb⟩ := hf.based hp
          refine h.set ⟨hf.since, hf.earlier, fun hx => ?_, fun _ => ⟨b, hb.sample h hi⟩⟩
          rw [hp] at hx
          cases hx
      · exact h

/-- The best of two subslots is the good one, or the other, which is not older. -/
theorem bestSubslot_left (c : Subslot) (o : Option Subslot) :
    bestSubslot none [some c, o] = some c ∨
      ∃ d, o = some d ∧ c.incarnation ≤ d.incarnation ∧
        bestSubslot none [some c, o] = some d := by
  cases o with
  | none => exact .inl rfl
  | some d =>
      by_cases hlt : c.incarnation < d.incarnation
      · exact .inr ⟨d, rfl, Nat.le_of_lt hlt, by simp [bestSubslot, hlt]⟩
      · exact .inl (by simp [bestSubslot, hlt])

/-- Of two values the one of the higher incarnation. -/
theorem bestSubslot_right (c : Subslot) (o : Option Subslot) :
    bestSubslot none [o, some c] = some c ∨
      ∃ d, o = some d ∧ c.incarnation ≤ d.incarnation ∧
        bestSubslot none [o, some c] = some d := by
  cases o with
  | none => exact .inl rfl
  | some d =>
      by_cases hlt : d.incarnation < c.incarnation
      · exact .inl (by simp [bestSubslot, hlt])
      · exact .inr ⟨d, rfl, Nat.le_of_not_lt hlt, by simp [bestSubslot, hlt]⟩

/-- **What a READ finds**: the WRITE it is based on, or the next one. -/
theorem Based.best {rd : Read} {b : Nat} (hb : Based s rd b) (h : Inv s) {x y : Option Subslot}
    (hx : rd.samples 0 = some x) (hy : rd.samples 1 = some y) :
    ∃ n c, bestSubslot none [x, y] = some c ∧ b ≤ n ∧ n ≤ s.landed ∧ s.nth n = some c := by
  obtain ⟨c, hc⟩ := exists_nth (Nat.le_trans hb.landed h.landed_le) (Nat.le_of_succ_le hb.pos)
  have hp := hb.pos
  -- what the other subslot holds is older, or the WRITE after `b`
  have newer : ∀ d, rd.samples ((b + 1) % 2) = some (some d) → c.incarnation ≤ d.incarnation →
      b + 1 ≤ s.landed ∧ s.nth (b + 1) = some d := by
    intro d hd hle
    rcases hb.other d hd with hd | hd
    · exact absurd hle (Nat.not_le_of_lt (h.lt hd hc (by omega) (by omega)))
    · exact hd
  have hown := hb.own
  rw [hc] at hown
  -- which of the two samples is that of `b`
  rcases Nat.mod_two_eq_zero_or_one b with h₀ | h₁
  · have h₀' : (b + 1) % 2 = 1 := by omega
    rw [h₀', hy] at newer
    rw [h₀] at hown
    cases hown x hx
    rcases bestSubslot_left c y with he | ⟨d, rfl, hle, he⟩
    · exact ⟨b, c, he, Nat.le_refl _, hb.landed, hc⟩
    · obtain ⟨hl, hd⟩ := newer d rfl hle
      exact ⟨b + 1, d, he, Nat.le_succ _, hl, hd⟩
  · have h₁' : (b + 1) % 2 = 0 := by omega
    rw [h₁', hx] at newer
    rw [h₁] at hown
    cases hown y hy
    rcases bestSubslot_right c x with he | ⟨d, rfl, hle, he⟩
    · exact ⟨b, c, he, Nat.le_refl _, hb.landed, hc⟩
    · obtain ⟨hl, hd⟩ := newer d rfl hle
      exact ⟨b + 1, d, he, Nat.le_succ _, hl, hd⟩

/-- A completed READ is regular. -/
theorem Inv.pollRead (h : Inv s) {k : Nat} {late : Bool} (hs : s.pollRead k late = .ok s') :
    Inv s' := by
  unfold State.pollRead at hs
  split at hs
  · cases hs; exact h
  · next rd hk =>
      split at hs
      · next x y hx hy =>
          have hf := h.reads rd (List.mem_of_getElem? hk)
          obtain ⟨b, hb⟩ := hf.based (hf.posted_of_sample hx)
          obtain ⟨n, c, hbest, hbn, hn, hc⟩ := hb.best h hx hy
          rw [hbest] at hs
          have hpos := Nat.le_trans hb.pos hbn
          -- the offset of the incarnations is taken off without wrapping
          have hval : (c.incarnation + 2 ^ 32 - 2) % 2 ^ 32 + 2 = c.incarnation := by
            have h₁ := h.large n c hpos hc
            have h₂ := h.lt_pow hc (Nat.le_of_succ_le hpos)
            omega
          simp only at hs
          generalize (c.incarnation + 2 ^ 32 - 2) % 2 ^ 32 = v at hs hval
          cases hs
          refine h.of_reads (fun rd' hm => h.reads rd' (List.mem_of_mem_eraseIdx hm))
            fun r hr => ?_
          rcases List.mem_append.mp hr with hr | hr
          · exact h.results r hr
          · cases List.mem_singleton.mp hr
            have hcv : s.nth n = some ⟨v + 2, c.value⟩ := by rw [hc, hval]
            refine ⟨⟨⟨n, Nat.le_trans hb.since hbn, Nat.le_trans hn h.landed_le, hcv⟩,
              fun e he => ?_⟩, fun d hd => ?_⟩
            · obtain ⟨a, ha⟩ := exists_nth (Nat.le_trans hb.landed h.landed_le)
                (Nat.le_of_succ_le hb.pos)
              have h₁ := hb.earlier e he a ha
              have h₂ := h.le ha hc (Nat.le_of_succ_le hb.pos) hbn
              change e ≤ v
              omega
            · rw [hval]
              exact h.le hc hd (Nat.le_of_succ_le hpos) hn
      · cases hs; exact h

theorem Inv.next (h : Inv s) (ho : s.Overlaps l) (hg : s.Increments l)
    (hs : s.next allowCustom l = .ok s') : Inv s' := by
  cases l with
  | write v c => exact h.write hg hs
  | post => cases hs; exact h.post ho
  | tear => cases hs; exact h.tear
  | land => cases hs; exact h.land
  | complete => cases hs; exact h.complete
  | read => cases hs; exact h.read
  | postRead k => cases hs; exact h.postRead k
  | sample k i => cases hs; exact h.sample k i
  | pollRead k late => exact h.pollRead hs

theorem inv_start (size : Nat) : Inv (start size) := by
  have hsmall : 2 < 2 ^ 32 := by decide
  refine ⟨Nat.le_refl _, ⟨rfl, rfl, rfl⟩, ?_, rfl, hsmall, fun n c hn hc => ?_, ?_, ?_, ?_,
    nofun, nofun⟩
  · refine List.pairwise_cons.mpr ⟨fun b hb => ?_, List.pairwise_singleton _ _⟩
    rw [List.mem_singleton.mp hb]
    exact Nat.one_lt_two
  · have hlt : n - 1 < 2 := lt_length_of_nth hc
    obtain rfl : n = 2 := by omega
    cases hc
    exact Nat.le_refl _
  · simp [start]
  · simp [start, nth]
  · simp [start, nth]

/-- In every run in which no READ is overtaken and no incarnation wraps. -/
theorem inv_of_reachable (h : Reachable Init (Step allowCustom)
    (fun s l => s.Overlaps l ∧ s.Increments l) s) : Inv s := by
  refine h.induct (fun s hs => ?_) fun s l s' _ hi hg hs => hi.next hg.1 hg.2 hs
  obtain ⟨size, rfl⟩ := hs
  exact inv_start size

/-- **The register is regular**, and READs do not go back, as long as no default WRITE makes the
incarnation wrap. -/
theorem read_regular (h : Reachable Init (Step allowCustom)
    (fun s l => s.Overlaps l ∧ s.Increments l) s) {r : Result} (hr : r ∈ s.results) :
    s.Regular r := ((inv_of_reachable h).results r hr).1

/-! ### An incarnation that wraps -/

namespace Example

/-- A WRITE that completes. -/
def writing (v : Bytes) (custom : Option UInt32) : List Label :=
  [.write v custom, .post, .tear, .land, .complete]

/-- A READ from beginning to end. -/
def reading : List Label := [.read, .postRead 0, .sample 0 0, .sample 0 1, .pollRead 0 false]

/-- The default WRITE after one with the incarnation `c`. -/
def following (c : UInt32) : List Label := writing [1] (some c) ++ writing [2] none ++ reading

/-- The two WRITEs completed, and the READ returned. -/
def returned (r : Result) (s : State) : Bool :=
  s.written == [⟨1, [0]⟩, ⟨2, [0]⟩, ⟨r.incarnation + 2, [1]⟩, ⟨r.incarnation + 3, [2]⟩] &&
    s.results == [r]

end Example

/-- After a WRITE with the incarnation `2 ^ 32 - 3`, the incarnation of a default WRITE is 0 in
memory: the READ returns the WRITE before it. -/
theorem not_read_regular :
    ¬ ∀ (allowCustom : Bool) (s : State), Reachable Init (Step allowCustom) Overlaps s →
        ∀ r ∈ s.results, s.Regular r := by
  intro h
  obtain ⟨s, hs, hr⟩ : ∃ s, Reachable Init (Step true) Overlaps s ∧
      Example.returned ⟨4294967293, [1], 4, [], 4⟩ s = true :=
    exists_reachable (start 1) ⟨1, rfl⟩ (Example.following 4294967293) (by decide +kernel)
  simp only [Example.returned, Bool.and_eq_true, beq_iff_eq] at hr
  obtain ⟨⟨n, hsince, hissued, hn⟩, -⟩ := h true s hs ⟨4294967293, [1], 4, [], 4⟩
    (by rw [hr.2]; exact List.mem_singleton_self _)
  obtain rfl : n = 4 := Nat.le_antisymm hissued hsince
  rw [nth, hr.1] at hn
  exact absurd hn (by decide)

/-- One incarnation less. -/
theorem read_regular_below : ∃ (s : State) (r : Result), r ∈ s.results ∧ r.value = [2] ∧
    s.Regular r := by
  obtain ⟨s, hs, hr⟩ : ∃ s, Reachable Init (Step true)
      (fun s l => s.Overlaps l ∧ s.Increments l) s ∧
        (s.results == [⟨4294967293, [2], 4, [], 4⟩]) = true :=
    exists_reachable (start 1) ⟨1, rfl⟩ (Example.following 4294967292) (by decide +kernel)
  have hm : (⟨4294967293, [2], 4, [], 4⟩ : Result) ∈ s.results := by
    rw [beq_iff_eq.mp hr]
    exact List.mem_singleton_self _
  exact ⟨s, _, hm, rfl, read_regular hs hm⟩

end State

end Ubft.Swmr

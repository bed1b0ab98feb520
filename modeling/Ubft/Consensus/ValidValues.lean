import Ubft.Consensus.Messages
import Ubft.Store.MapRuns

/-!
# Consensus — the values of a new view

`validValues` keeps, of the commits in the states of a NewView, the one of the highest view of each
instance, the first in the order of the message on ties, and puts their proposals in a tail map.
`Highest` is that commit and `Chosen` what the map is to hold; `emplaceRing` builds the map in the
ring of the source.

Instances are any of 64 bits.  Of the last ones the tail map drops some that are within the window
(`not_chosen`): the map is the chosen one exactly when the first instance in the window does not
wrap (`validValues_chosen`).
-/

namespace Ubft.Consensus

open Certifier (Certificate)
open VectorTailMap (left mem_left)

variable {l l₁ l₂ : List BroadcastCommit} {c c' : BroadcastCommit}

/-- `emplaceAll` in the ring. -/
def emplaceRing : VectorTailMap Bytes → List (Nat × Bytes) → Except String (VectorTailMap Bytes)
  | r, [] => .ok r
  | r, (i, v) :: rest => do
    let (r, _) ← r.tryEmplace i v
    emplaceRing r rest

/-- `validValues`, in the ring. -/
def NewViewMessage.ringOfValues (m : NewViewMessage) (window quorum : Nat) :
    Except String (VectorTailMap Bytes) :=
  emplaceRing { tail := window }
    ((bestProposals (m.serializedStates quorum)).entries.map fun e => (e.1, e.2.2))

/-- The commits of the states, in the order of the message. -/
def commitsOf (maps : List (Nat × OrdMap Nat BroadcastCommit)) : List BroadcastCommit :=
  maps.flatMap fun x => x.2.entries.map (·.2)

/-- The quorum of certificates carries states made of `maps`, none with more entries than the
window. -/
structure NewViewMessage.Carries (m : NewViewMessage) (window quorum : Nat)
    (maps : List (Nat × OrdMap Nat BroadcastCommit)) : Prop where
  quorum : maps.length = quorum
  states : m.vcCertificates.map (fun e => e.certificate.map (·.message)) =
    maps.map fun x => some (.of x.1 x.2)
  window : ∀ x ∈ maps, x.2.size ≤ window

/-! ### The commit of the highest view -/

/-- `c` is the commit of the highest view of its instance, the first such one. -/
def Highest (l : List BroadcastCommit) (c : BroadcastCommit) : Prop :=
  ∃ l₁ l₂, l = l₁ ++ c :: l₂ ∧ (∀ d ∈ l₁, d.inst = c.inst → d.view < c.view) ∧
    ∀ d ∈ l₂, d.inst = c.inst → d.view ≤ c.view

namespace Highest

theorem mem (h : Highest l c) : c ∈ l := by
  obtain ⟨l₁, l₂, rfl, -⟩ := h
  exact List.mem_append_right _ List.mem_cons_self

theorem view_le (h : Highest l c) {d : BroadcastCommit} (hd : d ∈ l) (hi : d.inst = c.inst) :
    d.view ≤ c.view := by
  obtain ⟨l₁, l₂, rfl, h₁, h₂⟩ := h
  rcases List.mem_append.mp hd with hd | hd
  · exact (h₁ d hd hi).le
  · rcases List.mem_cons.mp hd with rfl | hd
    · exact le_rfl
    · exact h₂ d hd hi

/-- Two splits of the list are ordered. -/
theorem eq_or_lt {l₁' l₂' : List BroadcastCommit} (he : l₁ ++ c :: l₂ = l₁' ++ c' :: l₂') :
    c = c' ∨ c ∈ l₁' ∧ c' ∈ l₂ ∨ c' ∈ l₁ ∧ c ∈ l₂' := by
  rcases List.append_eq_append_iff.mp he with ⟨as, rfl, h⟩ | ⟨as, rfl, h⟩
  · cases as with
    | nil => exact .inl (List.cons.inj h).1
    | cons a as =>
        obtain ⟨rfl, rfl⟩ := List.cons.inj h
        exact .inr (.inl ⟨List.mem_append_right _ List.mem_cons_self,
          List.mem_append_right _ List.mem_cons_self⟩)
  · cases as with
    | nil => exact .inl (List.cons.inj h).1.symm
    | cons a as =>
        obtain ⟨rfl, rfl⟩ := List.cons.inj h
        exact .inr (.inr ⟨List.mem_append_right _ List.mem_cons_self,
          List.mem_append_right _ List.mem_cons_self⟩)

theorem unique (h : Highest l c) (h' : Highest l c') (hi : c.inst = c'.inst) : c = c' := by
  obtain ⟨l₁, l₂, rfl, h₁, h₂⟩ := h
  obtain ⟨l₁', l₂', he, h₁', h₂'⟩ := h'
  rcases eq_or_lt he with heq | ⟨hc, hc'⟩ | ⟨hc', hc⟩
  · exact heq
  · exact absurd (h₁' c hc hi) (h₂ c' hc' hi.symm).not_gt
  · exact absurd (h₁ c' hc' hi.symm) (h₂' c hc hi).not_gt

/-- A commit that does not beat it comes after it. -/
theorem concat (h : Highest l c) {d : BroadcastCommit} (hd : d.inst = c.inst → d.view ≤ c.view) :
    Highest (l ++ [d]) c := by
  obtain ⟨l₁, l₂, rfl, h₁, h₂⟩ := h
  refine ⟨l₁, l₂ ++ [d], by rw [List.append_assoc, List.cons_append], h₁, fun x hx hi => ?_⟩
  rcases List.mem_append.mp hx with hx | hx
  · exact h₂ x hx hi
  · obtain rfl := List.mem_singleton.mp hx
    exact hd hi

end Highest

/-- What the fold has found in the commits `l`. -/
structure Best (l : List BroadcastCommit) (best : OrdMap Nat (Nat × Bytes)) : Prop where
  found : ∀ i v p, best.find? i = some (v, p) → ∃ c, Highest l c ∧ c.inst = i ∧ c.view = v ∧
    c.proposal = p
  missing : ∀ c ∈ l, best.find? c.inst ≠ none

/-- A commit of a higher view takes the place of the best one. -/
theorem Best.concat {best : OrdMap Nat (Nat × Bytes)} (h : Best l best) (c : BroadcastCommit) :
    Best (l ++ [c]) (bestProposal best c) := by
  -- a commit of the highest view so far, put in the place of what was there
  have hput : (∀ d ∈ l, d.inst = c.inst → d.view < c.view) →
      Best (l ++ [c]) (best.insert c.inst (c.view, c.proposal)) := by
    intro hlt
    refine ⟨fun i v p hf => ?_, fun d hd => ?_⟩
    · rw [OrdMap.find?_insert] at hf
      split at hf
      · next hi =>
          cases hf
          exact ⟨c, ⟨l, [], rfl, hlt, nofun⟩, hi.symm, rfl, rfl⟩
      · next hi =>
          obtain ⟨d, hd, hdi, hdv⟩ := h.found i v p hf
          exact ⟨d, hd.concat fun he => absurd (hdi.symm.trans he.symm) hi, hdi, hdv⟩
    · rw [OrdMap.find?_insert]
      split
      · exact nofun
      · next hi =>
          rcases List.mem_append.mp hd with hd | hd
          · exact h.missing d hd
          · exact absurd (congrArg (·.inst) (List.mem_singleton.mp hd)) hi
  unfold bestProposal
  split
  · next hno => exact hput fun d hd hi => absurd (hi ▸ hno) (h.missing d hd)
  · next v p hf =>
      obtain ⟨d, hd, hdi, rfl, rfl⟩ := h.found _ _ _ hf
      split
      · next hlt =>
          exact hput fun x hx hi => lt_of_le_of_lt (hd.view_le hx (hi.trans hdi.symm)) hlt
      · next hge =>
          refine ⟨fun i v p hf' => ?_, fun x hx => ?_⟩
          · obtain ⟨x, hx, hxi, rfl, rfl⟩ := h.found i v p hf'
            refine ⟨x, hx.concat fun he => ?_, hxi, rfl, rfl⟩
            rw [← hd.unique hx (hdi.trans he)]
            exact Nat.not_lt.mp hge
          · rcases List.mem_append.mp hx with hx | hx
            · exact h.missing x hx
            · rw [List.mem_singleton.mp hx, hf]
              exact nofun

theorem Best.foldl {best : OrdMap Nat (Nat × Bytes)} (h : Best l₁ best) (l₂ : List BroadcastCommit) :
    Best (l₁ ++ l₂) (l₂.foldl bestProposal best) := by
  induction l₂ generalizing l₁ best with
  | nil => rwa [List.append_nil]
  | cons c l₂ ih =>
      have hc := ih (h.concat c)
      rwa [List.append_assoc] at hc

theorem best_empty : Best [] .empty := ⟨nofun, nofun⟩

/-- **The best proposals are the highest of all the states' commits.** -/
theorem best_bestProposals (states : List SerializedState) :
    Best (states.flatMap (·.commits)) (bestProposals states) := by
  have key : ∀ (states : List SerializedState) {l : List BroadcastCommit}
      {best : OrdMap Nat (Nat × Bytes)}, Best l best → Best (l ++ states.flatMap (·.commits))
        (states.foldl (fun best s => s.commits.foldl bestProposal best) best) := by
    intro states
    induction states with
    | nil => intro l best h; rwa [List.flatMap_nil, List.append_nil]
    | cons s states ih =>
        intro l best h
        have hs := ih (h.foldl s.commits)
        rwa [List.append_assoc] at hs
  exact key states best_empty

/-! ### The tail map -/

section Emplaced

variable {n : Nat} {l es : List (Nat × Bytes)} {e f : Nat × Bytes}

/-- What is left when `es` are emplaced behind `l`. -/
def emplaced (n : Nat) (l es : List (Nat × Bytes)) : List (Nat × Bytes) :=
  es.foldl (fun l e => left n e.1 l ++ [e]) l

/-- In order, each of them is put behind what it leaves. -/
theorem emplaceAll_sorted {t : TailMap Bytes}
    (hs : (t.map.entries ++ es).Pairwise (fun e e' => e.1 < e'.1)) (hmin : ∀ e ∈ es, t.min ≤ e.1) :
    ∃ t', emplaceAll t es = .ok t' ∧ t'.tail = t.tail ∧
      t'.map.entries = emplaced t.tail t.map.entries es := by
  induction es generalizing t with
  | nil => exact ⟨t, rfl, rfl, rfl⟩
  | cons e es ih =>
      obtain ⟨i, w⟩ := e
      obtain ⟨-, hes, hbelow⟩ := List.pairwise_append.mp hs
      have hno : t.find? i = none := by
        cases hf : t.find? i with
        | none => rfl
        | some v =>
            have hmem := OrdMap.mem_entries_iff.mpr (show t.map.find? i = some v from hf)
            exact absurd (hbelow _ hmem _ List.mem_cons_self) (Nat.lt_irrefl i)
      have hput := TailMap.tryEmplaceWord_of_notMem w hno
      rw [if_neg (Nat.not_lt.mpr (hmin _ List.mem_cons_self))] at hput
      have hsub : (left t.tail i t.map.entries).Sublist t.map.entries := List.dropWhile_sublist _
      have hentries : ((t.skipWord i).insert i w).entries =
          left t.tail i t.map.entries ++ [(i, w)] :=
        OrdMap.insert_last fun x hx => hbelow x (hsub.subset hx) _ List.mem_cons_self
      obtain ⟨t', ht', htail, he⟩ :=
        ih (t := { t with map := (t.skipWord i).insert i w, min := i }) (by
          change (((t.skipWord i).insert i w).entries ++ es).Pairwise _
          rw [hentries, List.append_assoc]
          exact hs.sublist (hsub.append (List.Sublist.refl _)))
          fun e he => ((List.pairwise_cons.mp hes).1 e he).le
      refine ⟨t', ?_, htail, ?_⟩
      · rw [emplaceAll, hput]
        exact ht'
      · rw [he]
        exact congrArg (fun l => emplaced t.tail l es) hentries

/-- The ring keeps some of the proposals, in order. -/
theorem emplaced_sublist : (emplaced n l es).Sublist (l ++ es) := by
  induction es generalizing l with
  | nil => rw [List.append_nil]; exact List.Sublist.refl l
  | cons e es ih =>
      have hsub : (left n e.1 l).Sublist l := List.dropWhile_sublist _
      refine (ih (l := left n e.1 l ++ [e])).trans ?_
      rw [List.append_assoc]
      exact hsub.append (List.Sublist.refl _)

/-- What is left is less than a tail behind all that came. -/
theorem lt_add_of_mem_emplaced (hs : (l ++ es).Pairwise fun e e' => e.1 < e'.1)
    (hn : es ≠ [] → 0 < n) (he : e ∈ emplaced n l es) : ∀ x ∈ es, x.1 < e.1 + n := by
  induction es generalizing l with
  | nil => exact fun _ hx => absurd hx List.not_mem_nil
  | cons y es ih =>
      have hpos := hn (List.cons_ne_nil _ _)
      have hsub : (left n y.1 l).Sublist l := List.dropWhile_sublist _
      have hs' : ((left n y.1 l ++ [y]) ++ es).Pairwise fun e e' => e.1 < e'.1 := by
        rw [List.append_assoc]
        exact hs.sublist (hsub.append (List.Sublist.refl _))
      have hrest := ih hs' (fun _ => hpos) he
      have hmem : e ∈ (left n y.1 l ++ [y]) ++ es := emplaced_sublist.subset he
      obtain ⟨hl, hes, -⟩ := List.pairwise_append.mp hs
      intro x hx
      rcases List.mem_cons.mp hx with rfl | hx
      · rcases List.mem_append.mp hmem with hm | hm
        · rcases List.mem_append.mp hm with hm | hm
          · exact VectorTailMap.lt_add_of_mem_left hl hm
          · rw [List.mem_singleton.mp hm]
            exact Nat.lt_add_of_pos_right hpos
        · exact ((List.pairwise_cons.mp hes).1 e hm).trans (Nat.lt_add_of_pos_right hpos)
      · exact hrest x hx

/-- An entry that stops the loop of every key keeps itself and those behind it. -/
theorem mem_emplaced_of_stop (hs : (l ++ es).Pairwise fun e e' => e.1 < e'.1) (hf : f ∈ l)
    (hstop : ∀ x ∈ es, x.1 < (f.1 + n) % 2 ^ 64) (he : e ∈ l ++ es) (hle : f.1 ≤ e.1) :
    e ∈ emplaced n l es := by
  induction es generalizing l with
  | nil => rwa [List.append_nil] at he
  | cons y es ih =>
      obtain ⟨hl, -, -⟩ := List.pairwise_append.mp hs
      have hsub : (left n y.1 l).Sublist l := List.dropWhile_sublist _
      have hkept : ∀ x ∈ l, f.1 ≤ x.1 → x ∈ left n y.1 l := fun x hx hfx =>
        (mem_left hl).mpr ⟨hx, f, hf, hfx, hstop y List.mem_cons_self⟩
      refine ih (l := left n y.1 l ++ [y]) ?_ (List.mem_append_left _ (hkept f hf le_rfl))
        (fun x hx => hstop x (List.mem_cons_of_mem y hx)) ?_
      · rw [List.append_assoc]
        exact hs.sublist (hsub.append (List.Sublist.refl _))
      · rw [List.append_assoc]
        rcases List.mem_append.mp he with he | he
        · exact List.mem_append_left _ (hkept e he hle)
        · exact List.mem_append_right _ he

end Emplaced

/-- `i` is within the window of the last of the instances. -/
def Recent (present : Nat → Prop) (window i : Nat) : Prop := ∀ j, present j → j < i + window

/-- The window of the first recent instance does not wrap, unless it is the last one. -/
def Unwrapped (present : Nat → Prop) (window : Nat) : Prop :=
  ∀ i, present i → Recent present window i →
    (∀ j, present j → Recent present window j → i ≤ j) → (∃ j, present j ∧ i < j) →
      i + window < 2 ^ 64

section

variable {n : Nat} {es : List (Nat × Bytes)}

theorem recent_iff {i : Nat} :
    Recent (fun i => ∃ e ∈ es, e.1 = i) n i ↔ ∀ x ∈ es, x.1 < i + n :=
  ⟨fun h x hx => h x.1 ⟨x, hx, rfl⟩, by rintro h _ ⟨x, hx, rfl⟩; exact h x hx⟩

/-- The first recent entry is itself what stops the loop of the last one, if it is left. -/
theorem unwrapped_of_emplaced (hs : es.Pairwise fun e e' => e.1 < e'.1) (hn : n < 2 ^ 64)
    (hes : ∀ e ∈ es, e.1 < 2 ^ 64)
    (hall : ∀ e ∈ es, Recent (fun i => ∃ e ∈ es, e.1 = i) n e.1 → e ∈ emplaced n [] es) :
    Unwrapped (fun i => ∃ e ∈ es, e.1 = i) n := by
  rintro _ ⟨f, hf, rfl⟩ hfr hmin ⟨_, ⟨x, hx, rfl⟩, hlt⟩
  have hmem := hall f hf hfr
  obtain ⟨init, last, rfl⟩ := List.eq_nil_or_concat es |>.resolve_left (List.ne_nil_of_mem hf)
  rw [List.concat_eq_append] at *
  obtain ⟨hinit, -, hbelow⟩ := List.pairwise_append.mp hs
  have hle : ∀ y ∈ init ++ [last], y.1 ≤ last.1 := by
    intro y hy
    rcases List.mem_append.mp hy with hy | hy
    · exact (hbelow y hy last List.mem_cons_self).le
    · exact (congrArg Prod.fst (List.mem_singleton.mp hy)).le
  have hfl : f.1 < last.1 := hlt.trans_le (hle x hx)
  rw [emplaced, List.foldl_append] at hmem
  change f ∈ left n last.1 (emplaced n [] init) ++ [last] at hmem
  have hsub : (emplaced n [] init).Sublist init := emplaced_sublist
  have hleft : f ∈ left n last.1 (emplaced n [] init) :=
    (List.mem_append.mp hmem).resolve_right fun h =>
      hfl.ne (congrArg Prod.fst (List.mem_singleton.mp h))
  obtain ⟨-, g, hg, hgf, hstop⟩ := (mem_left (hinit.sublist hsub)).mp hleft
  have hgi := List.mem_append_left [last] (hsub.subset hg)
  have hgr : ∀ y ∈ init ++ [last], y.1 < g.1 + n := fun y hy =>
    (hle y hy).trans_lt (hstop.trans_le (Nat.mod_le _ _))
  have hfg : f.1 = g.1 := le_antisymm (hmin g.1 ⟨g, hgi, rfl⟩ (recent_iff.mpr hgr)) hgf
  rw [← hfg] at hstop
  exact VectorTailMap.add_lt_of_stop hfl (hes last (List.mem_append_right _ List.mem_cons_self))
    hn hstop

/-- If there is a recent entry, there is a first one, behind which the others are. -/
theorem exists_first_recent (hs : es.Pairwise fun e e' => e.1 < e'.1) {e : Nat × Bytes}
    (he : e ∈ es) (her : ∀ x ∈ es, x.1 < e.1 + n) :
    ∃ f as bs, es = as ++ f :: bs ∧ (∀ x ∈ es, x.1 < f.1 + n) ∧ (∀ x ∈ bs, f.1 < x.1) ∧
      ∀ g ∈ es, (∀ x ∈ es, x.1 < g.1 + n) → g ∈ f :: bs := by
  have hsome : (es.find? fun x => decide (∀ y ∈ es, y.1 < x.1 + n)).isSome :=
    List.find?_isSome.mpr ⟨e, he, decide_eq_true her⟩
  obtain ⟨f, hf⟩ := Option.isSome_iff_exists.mp hsome
  obtain ⟨hfr, as, bs, hsplit, has⟩ := List.find?_eq_some_iff_append.mp hf
  rw [hsplit] at hs
  obtain ⟨-, hfbs, -⟩ := List.pairwise_append.mp hs
  refine ⟨f, as, bs, hsplit, of_decide_eq_true hfr, (List.pairwise_cons.mp hfbs).1,
    fun g hg hgr => ?_⟩
  rw [hsplit] at hg
  refine (List.mem_append.mp hg).resolve_left fun hg => ?_
  exact absurd (has g hg) (by simpa using hgr)

/-- The first recent entry stops the loop of those behind it, if it does not wrap. -/
theorem emplaced_of_unwrapped (hs : es.Pairwise fun e e' => e.1 < e'.1)
    (hunwrapped : Unwrapped (fun i => ∃ e ∈ es, e.1 = i) n) {e : Nat × Bytes} (he : e ∈ es)
    (her : Recent (fun i => ∃ e ∈ es, e.1 = i) n e.1) : e ∈ emplaced n [] es := by
  obtain ⟨f, as, bs, hsplit, hfr, hafter, hrest⟩ := exists_first_recent hs he (recent_iff.mp her)
  have hfe : f ∈ es := hsplit ▸ List.mem_append_right _ List.mem_cons_self
  have hle : ∀ g ∈ f :: bs, f.1 ≤ g.1 := by
    intro g hg
    rcases List.mem_cons.mp hg with rfl | hg
    · exact le_rfl
    · exact (hafter g hg).le
  have hstop : ∀ x ∈ bs, x.1 < (f.1 + n) % 2 ^ 64 := by
    intro x hx
    have hxe : x ∈ es := hsplit ▸ List.mem_append_right _ (List.mem_cons_of_mem f hx)
    have hlt := hunwrapped f.1 ⟨f, hfe, rfl⟩ (recent_iff.mpr hfr)
      (by rintro _ ⟨g, hg, rfl⟩ hgr; exact hle g (hrest g hg (recent_iff.mp hgr)))
      ⟨x.1, ⟨x, hxe, rfl⟩, hafter x hx⟩
    rw [Nat.mod_eq_of_lt hlt]
    exact hfr x hxe
  have hmem := hrest e he (recent_iff.mp her)
  rw [hsplit] at hs
  rw [hsplit, emplaced, List.foldl_append]
  have hsub : (left n f.1 (emplaced n [] as)).Sublist as :=
    (List.dropWhile_sublist _).trans emplaced_sublist
  refine mem_emplaced_of_stop (l := left n f.1 (emplaced n [] as) ++ [f]) (f := f) ?_
    (List.mem_append_right _ List.mem_cons_self) hstop ?_ (hle e hmem)
  · rw [List.append_assoc]
    exact hs.sublist (hsub.append (List.Sublist.refl _))
  · rw [List.append_assoc]
    exact List.mem_append_right _ hmem

/-- **All that is recent is left** by emplacing entries in order if the first of it does not wrap,
and only then. -/
theorem recent_emplaced_iff (hs : es.Pairwise fun e e' => e.1 < e'.1) (hn : n < 2 ^ 64)
    (hes : ∀ e ∈ es, e.1 < 2 ^ 64) :
    (∀ e ∈ es, Recent (fun i => ∃ e ∈ es, e.1 = i) n e.1 → e ∈ emplaced n [] es) ↔
      Unwrapped (fun i => ∃ e ∈ es, e.1 = i) n :=
  ⟨unwrapped_of_emplaced hs hn hes, fun h _ => emplaced_of_unwrapped hs h⟩

end

/-- The ring takes what the map takes. -/
theorem emplaceRing_refines {r : VectorTailMap Bytes} {t t' : TailMap Bytes}
    {es : List (Nat × Bytes)} (hn : es ≠ [] → 0 < t.tail) (h : r.Refines t)
    (he : emplaceAll t es = .ok t') : ∃ r', emplaceRing r es = .ok r' ∧ r'.Refines t' := by
  induction es generalizing r t with
  | nil => cases he; exact ⟨r, rfl, h⟩
  | cons e es ih =>
      obtain ⟨i, w⟩ := e
      obtain ⟨⟨t₁, b⟩, h₁, h₂⟩ := bind_eq_ok.mp he
      have htail := hn (List.cons_ne_nil _ _)
      obtain ⟨r₁, hr₁, hrefines⟩ := h.tryEmplace htail h₁
      obtain ⟨r', hr', h'⟩ := ih (fun _ => TailMap.tail_tryEmplaceWord h₁ ▸ htail) hrefines h₂
      exact ⟨r', by rw [emplaceRing, hr₁]; exact hr', h'⟩

/-! ### The values -/

/-- What `validValues` must hold of the commits `l`: the proposal of the commit of the highest view
of each instance within the window of the last one. -/
structure Chosen (l : List BroadcastCommit) (window : Nat) (find? : Nat → Option Bytes) : Prop where
  value : ∀ i p, find? i = some p → ∃ c, Highest l c ∧ c.inst = i ∧ c.proposal = p
  defined : ∀ i, find? i ≠ none ↔ (∃ c ∈ l, c.inst = i) ∧ ∀ c ∈ l, c.inst < i + window

variable {m : NewViewMessage} {window quorum : Nat} {maps : List (Nat × OrdMap Nat BroadcastCommit)}

/-- The states of a NewView are those that it carries. -/
theorem NewViewMessage.Carries.serializedStates (h : m.Carries window quorum maps) :
    m.serializedStates quorum = maps.map fun x => .of x.1 x.2 := by
  have hlen : m.vcCertificates.length = quorum := by
    have hmaps := congrArg List.length h.states
    rwa [List.length_map, List.length_map, h.quorum] at hmaps
  have hfilter := congrArg (List.filterMap id) h.states
  rw [List.filterMap_map, List.filterMap_map] at hfilter
  rw [NewViewMessage.serializedStates, List.take_of_length_le hlen.le]
  exact hfilter.trans (congrFun List.filterMap_eq_map maps)

/-- The commits a NewView carries are those of the maps. -/
theorem flatMap_of (maps : List (Nat × OrdMap Nat BroadcastCommit)) :
    (maps.map fun x => SerializedState.of x.1 x.2).flatMap (·.commits) = commitsOf maps := by
  rw [List.flatMap_map]
  rfl

/-- A map of best proposals is empty if there are no commits. -/
theorem Best.window_pos {best : OrdMap Nat (Nat × Bytes)} (h : Best (commitsOf maps) best)
    (hw : ∀ x ∈ maps, x.2.size ≤ window) {e : Nat × Nat × Bytes} (he : e ∈ best.entries) :
    0 < window := by
  obtain ⟨c, hc, -⟩ := h.found e.1 e.2.1 e.2.2 (OrdMap.mem_entries.mp he)
  obtain ⟨x, hx, hcx⟩ := List.mem_flatMap.mp hc.mem
  obtain ⟨y, hy, -⟩ := List.mem_map.mp hcx
  exact lt_of_lt_of_le (List.length_pos_of_mem hy) (hw x hx)

theorem Best.entry {best : OrdMap Nat (Nat × Bytes)} (h : Best l best) {i : Nat} :
    (∃ c ∈ l, c.inst = i) ↔ ∃ e ∈ best.entries, e.1 = i := by
  constructor
  · rintro ⟨c, hc, rfl⟩
    obtain ⟨w, hw⟩ := Option.ne_none_iff_exists'.mp (h.missing c hc)
    exact ⟨_, OrdMap.mem_entries_iff.mpr hw, rfl⟩
  · rintro ⟨e, he, rfl⟩
    obtain ⟨c, hc, hi, -⟩ := h.found e.1 e.2.1 e.2.2 (OrdMap.mem_entries.mp he)
    exact ⟨c, hc.mem, hi⟩

/-- The instances of the best proposals are those committed. -/
theorem Best.present {best : OrdMap Nat (Nat × Bytes)} (h : Best l best) :
    (fun i => ∃ e ∈ best.entries.map fun e => (e.1, e.2.2), e.1 = i) =
      fun i => ∃ c ∈ l, c.inst = i := by
  funext i
  refine propext (Iff.trans ⟨?_, ?_⟩ h.entry.symm)
  · rintro ⟨_, hmem, rfl⟩
    obtain ⟨e, he, rfl⟩ := List.mem_map.mp hmem
    exact ⟨e, he, rfl⟩
  · rintro ⟨e, he, rfl⟩
    exact ⟨_, List.mem_map_of_mem he, rfl⟩

/-- Each best proposal is that of the commit of the highest view. -/
theorem Best.highest {best : OrdMap Nat (Nat × Bytes)} (h : Best l best) {i : Nat} {p : Bytes}
    (hp : (i, p) ∈ best.entries.map fun e => (e.1, e.2.2)) :
    ∃ c, Highest l c ∧ c.inst = i ∧ c.proposal = p := by
  obtain ⟨e, he, heq⟩ := List.mem_map.mp hp
  cases heq
  obtain ⟨c, hc, hi, -, hp⟩ := h.found e.1 e.2.1 e.2.2 (OrdMap.mem_entries.mp he)
  exact ⟨c, hc, hi, hp⟩

/-- A map of best proposals is the chosen one if it has all that are recent. -/
theorem Best.chosen_iff {best : OrdMap Nat (Nat × Bytes)} (h : Best l best)
    {find? : Nat → Option Bytes} {values : List (Nat × Bytes)}
    (hf : ∀ i p, find? i = some p ↔ (i, p) ∈ values)
    (hvalues : values ⊆ best.entries.map fun e => (e.1, e.2.2))
    (hrecent : ∀ e ∈ values, Recent (fun i => ∃ c ∈ l, c.inst = i) window e.1) :
    Chosen l window find? ↔ ∀ e ∈ best.entries.map (fun e => (e.1, e.2.2)),
      Recent (fun i => ∃ c ∈ l, c.inst = i) window e.1 → e ∈ values := by
  have hrec : ∀ i, Recent (fun i => ∃ c ∈ l, c.inst = i) window i ↔
      ∀ c ∈ l, c.inst < i + window :=
    fun i => ⟨fun h c hc => h c.inst ⟨c, hc, rfl⟩, by rintro h _ ⟨c, hc, rfl⟩; exact h c hc⟩
  have hone : ∀ {e e' : Nat × Bytes}, e ∈ best.entries.map (fun e => (e.1, e.2.2)) →
      e' ∈ best.entries.map (fun e => (e.1, e.2.2)) → e.1 = e'.1 → e = e' := by
    intro e e' he he' hi
    obtain ⟨x, hx, rfl⟩ := List.mem_map.mp he
    obtain ⟨y, hy, rfl⟩ := List.mem_map.mp he'
    have hxy : x.2 = y.2 := Option.some.inj ((OrdMap.mem_entries.mp hx).symm.trans
      ((congrArg best.find? hi).trans (OrdMap.mem_entries.mp hy)))
    exact Prod.ext hi (congrArg (fun z : Nat × Bytes => z.2) hxy :)
  constructor
  · rintro hc e he her
    obtain ⟨x, hx, rfl⟩ := List.mem_map.mp he
    have hne := (hc.defined x.1).mpr ⟨h.entry.mpr ⟨x, hx, rfl⟩, (hrec x.1).mp her⟩
    obtain ⟨p, hp⟩ := Option.ne_none_iff_exists'.mp hne
    have hmem := (hf x.1 p).mp hp
    exact hone (hvalues hmem) he rfl ▸ hmem
  · refine fun hall => ⟨fun i p hp => ?_, fun i => ⟨fun hne => ?_, fun ⟨hi, hnear⟩ hno => ?_⟩⟩
    · exact h.highest (hvalues ((hf i p).mp hp))
    · obtain ⟨p, hp⟩ := Option.ne_none_iff_exists'.mp hne
      have hmem := (hf i p).mp hp
      obtain ⟨e, he, heq⟩ := List.mem_map.mp (hvalues hmem)
      exact ⟨h.entry.mpr ⟨e, he, congrArg Prod.fst heq⟩, (hrec i).mp (hrecent _ hmem)⟩
    · obtain ⟨e, he, rfl⟩ := h.entry.mp hi
      have hmem := hall _ (List.mem_map_of_mem he) ((hrec e.1).mpr hnear)
      exact nomatch hno.symm.trans ((hf e.1 e.2.2).mpr hmem)

/-- **The values of a new view.**  `validValues` succeeds, and a walk over the ring visits the
values by increasing instance; what is mapped is the proposal of the commit of the highest view of
an instance committed within the window of the last one; and every such instance is mapped if and
only if the window of the first one does not wrap. -/
theorem validValues_chosen (h : m.Carries window quorum maps) (hw : window < 2 ^ 64)
    (hinst : ∀ c ∈ commitsOf maps, c.inst < 2 ^ 64) :
    ∃ values ring, m.validValues window quorum = .ok values ∧
      m.ringOfValues window quorum = .ok ring ∧ ring.Refines values ∧
      (Chosen (commitsOf maps) window ring.find? ↔
        Unwrapped (fun i => ∃ c ∈ commitsOf maps, c.inst = i) window) ∧
      (∀ i p, ring.find? i = some p →
        (∃ c, Highest (commitsOf maps) c ∧ c.inst = i ∧ c.proposal = p) ∧
          ∀ c ∈ commitsOf maps, c.inst < i + window) ∧
      ∀ fuel, window ≤ fuel →
        (ring.walk fuel ring.head).Pairwise (fun e e' => e.1 < e'.1) ∧
        ∀ i p, (i, p) ∈ ring.walk fuel ring.head ↔ ring.find? i = some p := by
  have hbest := best_bestProposals (m.serializedStates quorum)
  rw [h.serializedStates, flatMap_of] at hbest
  have hsorted : ((bestProposals (maps.map fun x => .of x.1 x.2)).entries.map
      fun e => (e.1, e.2.2)).Pairwise (fun e e' => e.1 < e'.1) :=
    List.pairwise_map.mpr (bestProposals _).sorted
  have hpos : ((bestProposals (maps.map fun x => .of x.1 x.2)).entries.map
      fun e => (e.1, e.2.2)) ≠ [] → 0 < window := by
    intro hne
    obtain ⟨e, he⟩ := List.exists_mem_of_ne_nil _ hne
    obtain ⟨x, hx, -⟩ := List.mem_map.mp he
    exact hbest.window_pos h.window hx
  have hpresent := hbest.present
  obtain ⟨values, hvalues, htail, hentries⟩ :=
    emplaceAll_sorted (t := ⟨window, .empty, 0⟩) hsorted fun _ _ => Nat.zero_le _
  obtain ⟨ring, hring, hrefines⟩ := emplaceRing_refines hpos (VectorTailMap.refines_new window)
    hvalues
  have hfind : ∀ i p, ring.find? i = some p ↔ (i, p) ∈ values.map.entries := fun i p => by
    rw [hrefines.find?]
    exact OrdMap.mem_entries_iff.symm
  generalize hes : (bestProposals (maps.map fun x => .of x.1 x.2)).entries.map
    (fun e => (e.1, e.2.2)) = es at *
  change values.map.entries = emplaced window [] es at hentries
  have hsubset : values.map.entries ⊆ es := hentries ▸ emplaced_sublist.subset
  have hnear : ∀ e ∈ values.map.entries,
      Recent (fun i => ∃ c ∈ commitsOf maps, c.inst = i) window e.1 := by
    rw [← hpresent]
    rintro e he _ ⟨x, hx, rfl⟩
    rw [hentries] at he
    exact lt_add_of_mem_emplaced (l := []) hsorted hpos he x hx
  have hinstances : ∀ e ∈ es, e.1 < 2 ^ 64 := by
    intro e he
    obtain ⟨c, hc, hi⟩ := (congrFun hpresent e.1).mp ⟨e, he, rfl⟩
    exact hi ▸ hinst c hc
  refine ⟨values, ring, ?_, ?_, hrefines, ?_, fun i p hp => ⟨?_, fun c hc => ?_⟩,
    fun fuel hfuel => ?_⟩
  · rw [NewViewMessage.validValues, h.serializedStates, hes]
    exact hvalues
  · rw [NewViewMessage.ringOfValues, h.serializedStates, hes]
    exact hring
  · have hiff := recent_emplaced_iff hsorted hw hinstances
    rw [hpresent, ← hentries] at hiff
    refine (hbest.chosen_iff hfind (hes ▸ hsubset) hnear).trans ?_
    rw [hes]
    exact hiff
  · exact hbest.highest (hes ▸ hsubset ((hfind i p).mp hp))
  · exact hnear _ ((hfind i p).mp hp) c.inst ⟨c, hc, rfl⟩
  · have hlen : values.map.entries.length ≤ window := by
      cases hv : values.map.entries with
      | nil => exact Nat.zero_le _
      | cons e rest =>
          have hmem := hsubset (hv ▸ List.mem_cons_self : e ∈ values.map.entries)
          have hle := hrefines.length_le (htail.symm ▸ hpos (List.ne_nil_of_mem hmem))
          rw [htail] at hle
          exact hv ▸ hle
    rw [hrefines.walk (hlen.trans hfuel)]
    exact ⟨values.map.sorted, fun i p => (hfind i p).symm⟩

namespace ValidValues.Example

/-- A replica committed the instances 3 and 4 in view 1, another one 4 and 5 in view 2. -/
def states : List (Nat × OrdMap Nat BroadcastCommit) :=
  [(2, (OrdMap.empty.insert 3 ⟨1, 3, [1]⟩).insert 4 ⟨1, 4, [2]⟩),
    (2, (OrdMap.empty.insert 4 ⟨2, 4, [3]⟩).insert 5 ⟨2, 5, [4]⟩)]

/-- The NewView of the certified states. -/
def newView : NewViewMessage where
  view := 3
  vcCertificates := states.map fun x => ⟨0, some (.of 0 2 [] (.of x.1 x.2))⟩

theorem chosen : ∃ ring, newView.ringOfValues 2 2 = .ok ring ∧ ring.find? 3 = none ∧
    ∃ c, Highest (commitsOf states) c ∧ c.inst = 4 ∧ ring.find? 4 = some c.proposal := by
  have hcarries : newView.Carries 2 2 states := ⟨rfl, rfl, by decide⟩
  obtain ⟨-, ring, -, hring, -, hiff, -⟩ := validValues_chosen hcarries (by decide) (by decide)
  have h := hiff.mpr (by
    rintro i ⟨c, hc, rfl⟩ - - -
    exact (by decide : ∀ c ∈ commitsOf states, c.inst + 2 < 2 ^ 64) c hc)
  refine ⟨ring, hring, ?_, ?_⟩
  · by_contra hno
    exact absurd ((h.defined 3).mp hno).2 (by decide)
  · obtain ⟨p, hp⟩ := Option.ne_none_iff_exists'.mp ((h.defined 4).mpr (by decide))
    obtain ⟨c, hc, hi, rfl⟩ := h.value 4 p hp
    exact ⟨c, hc, hi, hp⟩

/-- A replica committed the last two instances. -/
def lastStates : List (Nat × OrdMap Nat BroadcastCommit) :=
  [(2 ^ 64 - 2, (OrdMap.empty.insert (2 ^ 64 - 2) ⟨1, 2 ^ 64 - 2, [1]⟩).insert (2 ^ 64 - 1)
    ⟨1, 2 ^ 64 - 1, [2]⟩)]

/-- The NewView of states whose instances are the last ones. -/
def lastView : NewViewMessage where
  view := 3
  vcCertificates := lastStates.map fun x => ⟨0, some (.of 0 2 [] (.of x.1 x.2))⟩

end ValidValues.Example

open ValidValues.Example in
/-- The last two instances, and a window of two: the first one is not mapped. -/
theorem not_chosen : ¬ ∀ (m : NewViewMessage) (window quorum : Nat)
    (maps : List (Nat × OrdMap Nat BroadcastCommit)), m.Carries window quorum maps →
      window < 2 ^ 64 → (∀ c ∈ commitsOf maps, c.inst < 2 ^ 64) →
        ∃ ring, m.ringOfValues window quorum = .ok ring ∧
          Chosen (commitsOf maps) window ring.find? := by
  intro h
  obtain ⟨ring, hring, hchosen⟩ := h lastView 2 1 lastStates ⟨rfl, rfl, by decide⟩
    (by decide) (by decide)
  have hnone : (lastView.ringOfValues 2 1).toOption.bind (·.find? (2 ^ 64 - 2)) = none := by
    decide +kernel
  rw [hring] at hnone
  exact (hchosen.defined (2 ^ 64 - 2)).mpr (by decide) hnone

end Ubft.Consensus

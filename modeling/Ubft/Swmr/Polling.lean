import Ubft.Swmr.Buffers

/-!
# Swmr — the READs polled

What a host answers to a READ is what it found for this READ (`ManagedReader.Serves`).  `poll` of
the replicated reader returns a READ when enough hosts answered (`Ready`), once (`Inv.poll`), and
it leaves the other READs as they are.
-/

namespace Ubft.Swmr.Readers

variable {k handle : Handle}

/-! ### What the READs find -/

namespace Reader

variable {r r' : Reader} {asks : JobHandle → Index → Prop} {gets : JobHandle → Subslot → Prop}

/-- What is asked with the buffers, and what they got. -/
structure Holds (asks : JobHandle → Index → Prop) (gets : JobHandle → Subslot → Prop)
    (r : Reader) : Prop where
  pending : ∀ x ∈ r.outstandingReads ++ r.queuedReads, asks x.1 x.2
  completed : ∀ x ∈ r.completedReads, gets x.1 x.2

/-- A READ is posted for what was asked. -/
theorem Holds.read {index : Index} {job : JobHandle} (h : r.Holds asks gets)
    (ha : asks job index) (hr : r.read index = (r', some job)) : r'.Holds asks gets := by
  unfold Reader.read at hr
  split at hr
  · cases hr
  · next buffer hb =>
      cases hr
      obtain ⟨-, -, hc, ho⟩ := pushToQp_spec (r.queuedReads ++ [(job, index)])
        { r with bufferPool := r.bufferPool.dropLast }
      refine ⟨fun x hx => ?_, fun x hx => h.completed x (hc ▸ hx)⟩
      rw [ho, ← List.append_assoc] at hx
      rcases List.mem_append.mp hx with hx | hx
      · exact h.pending x hx
      · rw [List.mem_singleton.mp hx]
        exact ha

/-- A released READ is forgotten. -/
theorem Holds.release {job : JobHandle} (h : r.Holds asks gets) (hr : r.release job = .ok r') :
    r'.Holds asks gets := by
  unfold Reader.release at hr
  split at hr
  · cases hr
  · cases hr
    exact ⟨h.pending, fun x hx => h.completed x (Assoc.mem_of_mem_erase hx)⟩

/-- The outstanding READs complete in order. -/
theorem Holds.pollCompletion {wcs : List Completion} (h : r.Holds asks gets)
    (hg : ∀ x ∈ r.outstandingReads.zip wcs,
      ∀ found ∈ State.bestSubslot none [x.2.subslots.1, x.2.subslots.2],
        gets x.1.1 ⟨(found.incarnation + 2 ^ 32 - 2) % 2 ^ 32, found.value⟩)
    (hp : Reader.pollCompletion wcs r = .ok r') : r'.Holds asks gets := by
  induction wcs generalizing r with
  | nil => cases hp; exact h
  | cons wc wcs ih =>
      unfold Reader.pollCompletion at hp
      split at hp
      · cases hp
      · split at hp
        · cases hp; exact h
        · next expected index rest hout =>
            rw [hout] at hg
            have hask : asks expected index :=
              h.pending (expected, index) (by rw [hout]; exact List.mem_cons_self)
            have hrest : ∀ x ∈ rest ++ r.queuedReads, asks x.1 x.2 := fun x hx =>
              h.pending x (by rw [hout]; exact List.mem_cons_of_mem _ hx)
            split at hp
            · cases hp
            · next heq =>
                obtain rfl : wc.wrId = expected := not_not.mp heq
                split at hp
                · next best hbest =>
                    refine @ih { r with
                      outstandingReads := rest
                      completedReads := Assoc.tryEmplace r.completedReads wc.wrId
                        ⟨(best.incarnation + 2 ^ 32 - 2) % 2 ^ 32, best.value⟩ }
                      ⟨hrest, fun x hx => ?_⟩ (fun x hx => hg x (List.mem_cons_of_mem _ hx)) hp
                    rcases Assoc.mem_tryEmplace hx with hx | rfl
                    · exact h.completed x hx
                    · exact hg ((wc.wrId, index), wc) List.mem_cons_self best hbest
                · split at hp
                  · refine @ih { r with
                      outstandingReads := rest
                      queuedReads := r.queuedReads ++ [(wc.wrId, index)] }
                      ⟨fun x hx => ?_, h.completed⟩
                      (fun x hx => hg x (List.mem_cons_of_mem _ hx)) hp
                    -- the READ is queued again, with its buffer
                    change x ∈ rest ++ (r.queuedReads ++ [(wc.wrId, index)]) at hx
                    rw [← List.append_assoc] at hx
                    rcases List.mem_append.mp hx with hx | hx
                    · exact hrest x hx
                    · rw [List.mem_singleton.mp hx]
                      exact hask
                  · cases hp

/-- A completed READ holds what the host returned. -/
theorem Holds.tick {wcs : List Completion} (h : r.Holds asks gets)
    (hg : ∀ x ∈ r.outstandingReads.zip wcs,
      ∀ found ∈ State.bestSubslot none [x.2.subslots.1, x.2.subslots.2],
        gets x.1.1 ⟨(found.incarnation + 2 ^ 32 - 2) % 2 ^ 32, found.value⟩)
    (ht : r.tick wcs = .ok r') : r'.Holds asks gets := by
  unfold Reader.tick at ht
  split at ht
  · cases ht; exact h
  · obtain ⟨r₁, h₁, ht⟩ := bind_eq_ok.mp ht
    cases ht
    obtain ⟨-, -, hc, ho⟩ := pushToQp_spec r₁.queuedReads r₁
    have h₁ := h.pollCompletion hg h₁
    exact ⟨fun x hx => h₁.pending x (ho ▸ hx), fun x hx => h₁.completed x (hc ▸ hx)⟩

end Reader

namespace ManagedReader

variable {m m' : ManagedReader} {asks asks' : Handle → Index → Prop}
  {gets gets' : Handle → Subslot → Prop} {next : Handle} {done : List Handle}

/-- What the READs of the replicated reader ask of the host, and what it answers them. -/
structure Serves (asks : Handle → Index → Prop) (gets : Handle → Subslot → Prop)
    (m : ManagedReader) : Prop where
  queued : ∀ x ∈ m.queuedReads, asks x.1 x.2
  reader : m.reader.Holds (fun job index => ∀ e ∈ m.scheduledReads, e.2 = job → asks e.1 index)
    fun job x => ∀ e ∈ m.scheduledReads, e.2 = job → gets e.1 x

/-- More may have been asked and returned. -/
theorem Serves.mono (h : m.Serves asks gets) (ha : ∀ k index, asks k index → asks' k index)
    (hg : ∀ k x, gets k x → gets' k x) : m.Serves asks' gets' :=
  ⟨fun x hx => ha _ _ (h.queued x hx),
    fun x hx e he hj => ha _ _ (h.reader.pending x hx e he hj),
    fun x hx e he hj => hg _ _ (h.reader.completed x hx e he hj)⟩

/-- **The handles stay with their READs** when the queue is given to the reader under the handles
it holds. -/
theorem Serves.pushToReader {q : List (Handle × Index)}
    (hi : ({ m with queuedReads := q } : ManagedReader).Inv next done)
    (h : ({ m with queuedReads := q } : ManagedReader).Serves asks gets) :
    (ManagedReader.pushToReader q (q.map Prod.fst) m).Serves asks gets := by
  induction q generalizing m with
  | nil => exact h
  | cons x q ih =>
      obtain ⟨handle, index⟩ := x
      unfold ManagedReader.pushToReader
      split
      · exact h
      · next r' job hr =>
          obtain ⟨hnot, hjob, hi'⟩ := hi.schedule hr
          have hask : asks handle index := h.queued (handle, index) List.mem_cons_self
          have hsched : ∀ e ∈ m.scheduledReads, e.2 ≠ job := fun e he hj =>
            hjob (hi.jobs.mem_iff.mpr (List.mem_append_left _
              (List.mem_map.mpr ⟨e, he, hj⟩)))
          simp only [List.map_cons, List.headD_cons, List.tail_cons]
          rw [Assoc.tryEmplace_of_notMem hnot]
          refine ih hi' ⟨fun x hx => h.queued x (List.mem_cons_of_mem _ hx), ?_⟩
          -- the buffer holds no READ before this one
          refine Reader.Holds.read ⟨fun x hx e he hj => ?_, fun x hx e he hj => ?_⟩
            (fun e he hj => ?_) hr <;> rcases List.mem_append.mp he with he | he
          · exact h.reader.pending x hx e he hj
          · rw [List.mem_singleton.mp he] at hj
            exact absurd (List.mem_append_left _ (List.mem_map.mpr ⟨x, hx, hj.symm⟩)) hjob
          · exact h.reader.completed x hx e he hj
          · rw [List.mem_singleton.mp he] at hj
            exact absurd (List.mem_append_right _ (List.mem_map.mpr ⟨x, hx, hj.symm⟩)) hjob
          · exact absurd hj (hsched e he)
          · rw [List.mem_singleton.mp he]
            exact hask

/-- A READ is queued under its own handle. -/
theorem Serves.read {index : Index} (hi : m.Inv next done) (h : m.Serves asks gets)
    (ha : asks next index) :
    (m.read next index (m.queuedReads.map Prod.fst ++ [next])).Serves asks gets := by
  have hq : m.queuedReads.map Prod.fst ++ [next] =
      (m.queuedReads ++ [(next, index)]).map Prod.fst := by rw [List.map_append]; rfl
  rw [ManagedReader.read, hq]
  refine Serves.pushToReader (hi.enqueue index) ⟨fun x hx => ?_, h.reader⟩
  rcases List.mem_append.mp hx with hx | hx
  · exact h.queued x hx
  · rw [List.mem_singleton.mp hx]
    exact ha

/-- Those released are not polled any more. -/
theorem Serves.tryRelease {jobs : List JobHandle} (h : m.Serves asks gets)
    (ht : ManagedReader.tryRelease jobs m = .ok m') : m'.Serves asks gets := by
  induction jobs generalizing m with
  | nil => cases ht; exact h
  | cons job jobs ih =>
      unfold ManagedReader.tryRelease at ht
      split at ht
      · exact ih h ht
      · split at ht
        · cases ht
        · next reader hr =>
            refine @ih { m with
              reader
              toRelease := m.toRelease.erase job
              abandoned := Assoc.erase m.abandoned job
              released := m.released ++ (m.abandoned.lookup job).toList } ⟨h.queued, ?_⟩ ht
            exact h.reader.release hr

/-- What the host returns is returned for the handle that asked. -/
theorem Serves.tick {wcs : List Completion} (hi : m.Inv next done) (h : m.Serves asks gets)
    (hg : ∀ x ∈ m.reader.outstandingReads.zip wcs,
      ∀ found ∈ State.bestSubslot none [x.2.subslots.1, x.2.subslots.2],
        ∀ e ∈ m.scheduledReads, e.2 = x.1.1 →
          gets e.1 ⟨(found.incarnation + 2 ^ 32 - 2) % 2 ^ 32, found.value⟩)
    (ht : m.tick wcs (m.queuedReads.map Prod.fst) = .ok m') : m'.Serves asks gets := by
  obtain ⟨reader, m₂, hr, hrel, hi₂, hreleased, rfl⟩ := hi.tick_cases ht
  have h₁ : ({ m with reader } : ManagedReader).Serves asks gets :=
    ⟨h.queued, h.reader.tick hg hr⟩
  have hq : m₂.queuedReads = m.queuedReads := hreleased.queuedReads
  rw [← hq]
  exact Serves.pushToReader hi₂ (h₁.tryRelease hrel)

/-- A release changes no other READ. -/
theorem Serves.release {freed : JobHandle} (h : m.Serves asks gets)
    (hr : m.release handle freed = .ok m') : m'.Serves asks gets := by
  unfold ManagedReader.release at hr
  split at hr
  · cases hr
    exact ⟨h.queued,
      fun x hx e he => h.reader.pending x hx e (Assoc.mem_of_mem_erase he),
      fun x hx e he => h.reader.completed x hx e (Assoc.mem_of_mem_erase he)⟩
  · split at hr
    · cases hr
      exact ⟨fun x hx => h.queued x (Assoc.mem_of_mem_erase hx), h.reader⟩
    · cases hr

/-- **What is polled under a handle was returned for it.** -/
theorem Serves.poll {x : Subslot} (h : m.Serves asks gets) (hp : m.poll handle = some x) :
    gets handle x := by
  obtain ⟨job, hj, hx⟩ := Option.bind_eq_some_iff.mp hp
  exact h.reader.completed (job, x) (Assoc.mem_of_lookup hx) (handle, job)
    (Assoc.mem_of_lookup hj) rfl

end ManagedReader

/-! ### The READs returned -/

/-- A release changes what is polled under no other handle. -/
theorem ManagedReader.poll_release {m m' : ManagedReader} {freed : JobHandle}
    (h : m.release handle freed = .ok m') (hk : k ≠ handle) : m'.poll k = m.poll k := by
  unfold release at h
  split at h
  · cases h
    rw [poll, poll, Assoc.lookup_erase_of_ne hk]
  · split at h
    · cases h; rfl
    · cases h

namespace ReplicatedReader

variable {s s' : ReplicatedReader}

/-- What `pushToReader` reads in `read`, when the element still holds it. -/
def readKeys (s : ReplicatedReader) : List (List Handle) :=
  s.readers.map fun m => m.queuedReads.map Prod.fst ++ [s.nextHandle]

/-- What `pushToReader` reads in `tick`. -/
def tickKeys (s : ReplicatedReader) : List (List Handle) :=
  s.readers.map fun m => m.queuedReads.map Prod.fst

/-- What `release` reads in `poll`. -/
def jobs (s : ReplicatedReader) (handle : Handle) : List JobHandle :=
  s.readers.map fun m => (m.scheduledReads.lookup handle).getD 0

/-- Enough hosts answered. -/
def Ready (s : ReplicatedReader) (handle : Handle) : Prop :=
  (s.readers.length + 1) / 2 ≤ (s.polled handle).length

instance (s : ReplicatedReader) : DecidablePred s.Ready :=
  fun _ => inferInstanceAs (Decidable (_ ≤ _))

/-- A value is found if there is one. -/
theorem highest_eq_none {best : Option Subslot} {l : List Subslot}
    (h : highest best l = none) : best = none ∧ l = [] := by
  induction l generalizing best with
  | nil => exact ⟨h, rfl⟩
  | cons x l ih =>
      have hb := (ih h).1
      split at hb
      · cases hb
      · next hno =>
          rw [hb] at hno
          exact absurd (fun _ hm => nomatch hm) hno

/-- What is returned is an answer, or `best`, and no other one has a greater incarnation. -/
theorem highest_cases {best : Option Subslot} {l : List Subslot} {x : Subslot}
    (h : highest best l = some x) : (x ∈ l ∨ best = some x) ∧
      (∀ y ∈ l, y.incarnation ≤ x.incarnation) ∧ ∀ y ∈ best, y.incarnation ≤ x.incarnation := by
  induction l generalizing best with
  | nil =>
      refine ⟨.inr h, nofun, fun y hy => ?_⟩
      cases h.symm.trans hy
      exact Nat.le_refl _
  | cons y l ih =>
      obtain ⟨hm, hl, hb⟩ := ih h
      by_cases hlt : ∀ b ∈ best, b.incarnation < y.incarnation
      · rw [if_pos hlt] at hm hb
        refine ⟨.inl (hm.elim (List.mem_cons_of_mem _) fun he => ?_), fun z hz => ?_,
          fun z hz => ?_⟩
        · cases he
          exact List.mem_cons_self
        · rcases List.mem_cons.mp hz with rfl | hz
          · exact hb z rfl
          · exact hl z hz
        · exact Nat.le_trans (Nat.le_of_lt (hlt z hz)) (hb y rfl)
      · rw [if_neg hlt] at hm hb
        push Not at hlt
        obtain ⟨b, hbm, hle⟩ := hlt
        refine ⟨hm.imp_left (List.mem_cons_of_mem _), fun z hz => ?_, hb⟩
        -- the head is not above the best so far
        rcases List.mem_cons.mp hz with rfl | hz
        · exact Nat.le_trans hle (hb b hbm)
        · exact hl z hz

/-- Each host reads. -/
theorem readAll_map (index : Index) (f : ManagedReader → List Handle) (ms : List ManagedReader) :
    readAll handle index ms (ms.map f) = ms.map fun m => m.read handle index (f m) := by
  induction ms with
  | nil => rfl
  | cons m ms ih => rw [List.map_cons, readAll, List.headD_cons, List.tail_cons, ih, List.map_cons]

theorem releaseAll_getElem? {f : ManagedReader → JobHandle} {ms ms' : List ManagedReader}
    (h : releaseAll handle ms (ms.map f) = .ok ms') {i : Nat} {m' : ManagedReader}
    (hm' : ms'[i]? = some m') :
    ∃ m, ms[i]? = some m ∧ m.release handle (f m) = .ok m' := by
  induction ms generalizing ms' i with
  | nil => cases h; cases hm'
  | cons m ms ih =>
      obtain ⟨m₁, hm, h⟩ := bind_eq_ok.mp h
      obtain ⟨ms₁, hms, h⟩ := bind_eq_ok.mp h
      cases h
      cases i with
      | zero => cases hm'; exact ⟨m, rfl, hm⟩
      | succ i => exact ih hms hm'

theorem tickAll_getElem? {f : ManagedReader → List Handle} {wcs : List (List Completion)}
    {ms ms' : List ManagedReader} (h : tickAll ms wcs (ms.map f) = .ok ms') {i : Nat}
    {m' : ManagedReader} (hm' : ms'[i]? = some m') :
    ∃ m, ms[i]? = some m ∧ m.tick (wcs.getD i []) (f m) = .ok m' := by
  induction ms generalizing ms' wcs i with
  | nil => cases h; cases hm'
  | cons m ms ih =>
      obtain ⟨m₁, hm, h⟩ := bind_eq_ok.mp h
      obtain ⟨ms₁, hms, h⟩ := bind_eq_ok.mp h
      cases h
      cases i with
      | zero => cases hm'; exact ⟨m, rfl, by cases wcs <;> exact hm⟩
      | succ i =>
          obtain ⟨m₂, hm₂, ht⟩ := ih hms hm'
          exact ⟨m₂, hm₂, by cases wcs <;> exact ht⟩

theorem releaseAll_poll {ms ms' : List ManagedReader} {freed : List JobHandle}
    (h : releaseAll handle ms freed = .ok ms') (hk : k ≠ handle) :
    ms'.length = ms.length ∧
      ms'.filterMap (fun m => m.poll k) = ms.filterMap (fun m => m.poll k) := by
  induction ms generalizing ms' freed with
  | nil => cases h; exact ⟨rfl, rfl⟩
  | cons m ms ih =>
      obtain ⟨m', hm, h⟩ := bind_eq_ok.mp h
      obtain ⟨ms₁, hms, h⟩ := bind_eq_ok.mp h
      cases h
      obtain ⟨hl, hp⟩ := ih hms
      refine ⟨congrArg (· + 1) hl, ?_⟩
      rw [List.filterMap_cons, List.filterMap_cons, hp, ManagedReader.poll_release hm hk]

/-- A READ that may be returned was not returned before. -/
theorem Inv.of_ready (h : s.Inv) (hr : s.Ready handle) :
    handle < s.nextHandle ∧ handle ∉ s.results.map Prod.fst := by
  refine h.mem_polled fun hnil => ?_
  have hpos := List.length_pos_iff.mpr h.hosts
  rw [Ready, hnil, List.length_nil] at hr
  omega

/-- A handle that has a result was given. -/
theorem Inv.lt_nextHandle (h : s.Inv) (hm : handle ∈ s.results.map Prod.fst) :
    handle < s.nextHandle := by
  obtain ⟨m, hr⟩ := List.exists_mem_of_ne_nil _ h.hosts
  exact List.mem_range.mp ((h.inv m hr).live.mem_iff.mp (List.mem_append_right _ hm))

/-- A READ returned. -/
structure Returns (s : ReplicatedReader) (handle : Handle) (s' : ReplicatedReader) : Prop where
  ready : s.Ready handle
  nextHandle : s'.nextHandle = s.nextHandle
  results : s'.results.map Prod.fst = s.results.map Prod.fst ++ [handle]
  others : ∀ k, k ≠ handle → (s'.Ready k ↔ s.Ready k)

/-- **`poll`** returns a READ that is ready, and no other one. -/
theorem Inv.poll {x : Option Subslot} (h : s.Inv)
    (hp : s.poll handle (s.jobs handle) = .ok (s', x)) :
    s'.Inv ∧ (x = none ∧ s' = s ∧ ¬ s.Ready handle ∨ (∃ y, x = some y) ∧ s.Returns handle s') := by
  have hinv : s'.Inv := by
    have hs : Step s (.poll handle (s.jobs handle)) s' := by
      rw [Step, next, hp]
      rfl
    have hi : s.Intact (.poll handle (s.jobs handle)) := rfl
    exact inv_step h hi hs
  refine ⟨hinv, ?_⟩
  unfold ReplicatedReader.poll at hp
  split at hp
  · next hlt => cases hp; exact .inl ⟨rfl, rfl, Nat.not_le.mpr hlt⟩
  · next hle =>
      have hready : s.Ready handle := Nat.not_lt.mp hle
      split at hp
      · next hnone =>
          have hpos := List.length_pos_iff.mpr h.hosts
          rw [Ready, (highest_eq_none hnone).2, List.length_nil] at hready
          omega
      · next y hy =>
          obtain ⟨ms, hms, hp⟩ := bind_eq_ok.mp hp
          cases hp
          refine .inr ⟨⟨y, rfl⟩, hready, rfl, List.map_append, fun k hk => ?_⟩
          obtain ⟨hl, hpoll⟩ := releaseAll_poll hms hk
          rw [Ready, Ready, polled, polled, hl, hpoll]

theorem Inv.read (h : s.Inv) (index : Index) : (s.read index s.readKeys).1.Inv :=
  inv_step (l := .read index s.readKeys) h rfl rfl

/-- A tick gives no handle and no result. -/
theorem Inv.tick {wcs : List (List Completion)} (h : s.Inv)
    (ht : s.tick wcs s.tickKeys = .ok s') :
    s'.Inv ∧ s'.nextHandle = s.nextHandle ∧ s'.results = s.results := by
  refine ⟨inv_step (l := .tick wcs s.tickKeys) h rfl ht, ?_⟩
  obtain ⟨ms, -, ht⟩ := bind_eq_ok.mp ht
  cases ht
  exact ⟨rfl, rfl⟩

end ReplicatedReader

end Ubft.Swmr.Readers

import Ubft.Swmr.Reader

/-!
# Swmr — no buffer is lost

Every local buffer of a `swmr::Reader` is in its pool or held by one READ, and every READ that
holds one is scheduled by its `ManagedReader` or to be released (`Inv`), as long as what is read
in the elements just erased is what they held (`conserved_of_reachable`).  Where `release` reads
something else, the buffer is lost (`buffer_lost`).
-/

namespace Ubft.Swmr.Readers

namespace Reader

variable {r r' : Reader}

/-- The READs that hold a buffer, by their handles. -/
def held (r : Reader) : List JobHandle :=
  (r.outstandingReads ++ r.queuedReads).map Prod.fst ++ r.completedReads.map Prod.fst

/-- `pushToQp` moves READs from the queue to those outstanding. -/
theorem pushToQp_spec (q : List (JobHandle × Index)) (r : Reader) :
    (pushToQp q r).buffers = r.buffers ∧ (pushToQp q r).bufferPool = r.bufferPool ∧
      (pushToQp q r).completedReads = r.completedReads ∧
      (pushToQp q r).outstandingReads ++ (pushToQp q r).queuedReads = r.outstandingReads ++ q := by
  induction q generalizing r with
  | nil => exact ⟨rfl, rfl, rfl, rfl⟩
  | cons x q ih =>
      unfold pushToQp
      split
      · obtain ⟨hb, hp, hc, ho⟩ := ih { r with outstandingReads := r.outstandingReads ++ [x] }
        refine ⟨hb, hp, hc, ho.trans ?_⟩
        rw [List.append_assoc, List.singleton_append]
      · exact ⟨rfl, rfl, rfl, rfl⟩

/-- A READ takes the buffer at the back of the pool. -/
theorem read_some {index : Index} {job : JobHandle} (h : r.read index = (r', some job)) :
    r'.buffers = r.buffers ∧ r.bufferPool = r'.bufferPool ++ [job] ∧
      r'.completedReads = r.completedReads ∧ r'.held.Perm (job :: r.held) := by
  unfold read at h
  split at h
  · cases h
  · next buffer hb =>
      cases h
      obtain ⟨hbu, hp, hc, ho⟩ := pushToQp_spec (r.queuedReads ++ [(job, index)])
        { r with bufferPool := r.bufferPool.dropLast }
      refine ⟨hbu, ?_, hc, ?_⟩
      · rw [hp]
        exact (List.dropLast_append_getLast? job hb).symm
      · refine List.perm_iff_count.mpr fun b => ?_
        rw [held, ho, hc, held]
        simp only [List.map_append, List.map_cons, List.map_nil, List.count_append,
          List.count_cons, List.count_nil]
        omega

/-- A released buffer returns to the pool. -/
theorem release_cases {job : JobHandle} (h : r.release job = .ok r') :
    r'.buffers = r.buffers ∧ r'.bufferPool = r.bufferPool ++ [job] ∧ r.held.Perm (job :: r'.held) ∧
      r'.completedReads = Assoc.erase r.completedReads job := by
  unfold release at h
  split at h
  · cases h
  · next v hv =>
      cases h
      refine ⟨rfl, rfl, ?_, rfl⟩
      refine List.perm_iff_count.mpr fun b => ?_
      have := List.perm_iff_count.mp ((Assoc.perm_of_lookup hv).map Prod.fst) b
      simp only [held, List.map_cons, List.count_append, List.count_cons] at this ⊢
      omega

/-- A completion ends a READ or queues it again. -/
theorem pollCompletion_spec {wcs : List Completion} (hn : r.held.Nodup)
    (h : pollCompletion wcs r = .ok r') :
    r'.buffers = r.buffers ∧ r'.bufferPool = r.bufferPool ∧ r'.held.Perm r.held := by
  induction wcs generalizing r with
  | nil => cases h; exact ⟨rfl, rfl, .refl _⟩
  | cons wc wcs ih =>
      unfold pollCompletion at h
      split at h
      · cases h
      · split at h
        · cases h; exact ⟨rfl, rfl, .refl _⟩
        · next expected index rest hout =>
            split at h
            · cases h
            · next heq =>
                obtain rfl : wc.wrId = expected := not_not.mp heq
                have hfront : r.held = wc.wrId :: ((rest ++ r.queuedReads).map Prod.fst ++
                    r.completedReads.map Prod.fst) := by rw [held, hout]; rfl
                split at h
                · next best hbest =>
                    have hnot : wc.wrId ∉ r.completedReads.map Prod.fst := by
                      rw [hfront, List.nodup_cons] at hn
                      exact fun hm => hn.1 (List.mem_append_right _ hm)
                    rw [Assoc.tryEmplace_of_notMem hnot] at h
                    have hp : ({ r with
                        outstandingReads := rest
                        completedReads := r.completedReads ++ [(wc.wrId,
                          ⟨(best.incarnation + 2 ^ 32 - 2) % 2 ^ 32, best.value⟩)] } :
                        Reader).held.Perm r.held := by
                      refine List.perm_iff_count.mpr fun b => ?_
                      rw [hfront]
                      simp only [held, List.map_append, List.map_cons, List.map_nil,
                        List.count_append, List.count_cons, List.count_nil]
                      omega
                    obtain ⟨hb, hpool, hh⟩ := ih (hp.nodup_iff.mpr hn) h
                    exact ⟨hb, hpool, hh.trans hp⟩
                · split at h
                  · have hp : ({ r with
                        outstandingReads := rest
                        queuedReads := r.queuedReads ++ [(wc.wrId, index)] } :
                        Reader).held.Perm r.held := by
                      refine List.perm_iff_count.mpr fun b => ?_
                      rw [hfront]
                      simp only [held, List.map_append, List.map_cons, List.map_nil,
                        List.count_append, List.count_cons, List.count_nil]
                      omega
                    obtain ⟨hb, hpool, hh⟩ := ih (hp.nodup_iff.mpr hn) h
                    exact ⟨hb, hpool, hh.trans hp⟩
                  · cases h

/-- What polling completions can fail with. -/
theorem pollCompletion_error {wcs : List Completion} {e : Error}
    (h : pollCompletion wcs r = .error e) : e ≠ .jobNotFound ∧ e ≠ .eraseEnd := by
  induction wcs generalizing r with
  | nil => cases h
  | cons wc wcs ih =>
      unfold pollCompletion at h
      split at h
      · cases h; exact ⟨nofun, nofun⟩
      · split at h
        · cases h
        · split at h
          · cases h; exact ⟨nofun, nofun⟩
          · split at h
            · exact ih h
            · split at h
              · exact ih h
              · cases h; exact ⟨nofun, nofun⟩

/-- A tick posts and completes, and no buffer changes hands. -/
theorem tick_spec {wcs : List Completion} (hn : r.held.Nodup) (h : r.tick wcs = .ok r') :
    r'.buffers = r.buffers ∧ r'.bufferPool = r.bufferPool ∧ r'.held.Perm r.held := by
  unfold tick at h
  split at h
  · cases h; exact ⟨rfl, rfl, .refl _⟩
  · obtain ⟨r₁, h₁, h₂⟩ := bind_eq_ok.mp h
    cases h₂
    obtain ⟨hb, hp, hh⟩ := pollCompletion_spec hn h₁
    obtain ⟨hb', hp', hc', ho⟩ := pushToQp_spec r₁.queuedReads r₁
    refine ⟨hb'.trans hb, hp'.trans hp, ?_⟩
    rw [held, ho, hc']
    exact hh

end Reader

namespace ManagedReader

variable {m m' : ManagedReader} {next : Handle} {done : List Handle}

/-- The buffers, the jobs and the handles of one host, when `next` handles were given out and
`done` were returned. -/
structure Inv (next : Handle) (done : List Handle) (m : ManagedReader) : Prop where
  nodup : m.reader.buffers.Nodup
  places : (m.reader.bufferPool ++ m.reader.held).Perm m.reader.buffers
  jobs : m.reader.held.Perm (m.scheduledReads.map Prod.snd ++ m.toRelease)
  abandoned : m.toRelease.Perm (m.abandoned.map Prod.fst)
  live : (m.queuedReads.map Prod.fst ++ m.scheduledReads.map Prod.fst ++ done).Perm
    (List.range next)
  returned : (m.abandoned.map Prod.snd ++ m.released ++ m.cancelled).Perm done

namespace Inv

theorem nodup_held (h : m.Inv next done) : m.reader.held.Nodup :=
  ((List.nodup_append.mp (h.places.nodup_iff.mpr h.nodup)).2.1)

theorem nodup_jobs (h : m.Inv next done) :
    (m.scheduledReads.map Prod.snd ++ m.toRelease).Nodup :=
  h.jobs.nodup_iff.mp h.nodup_held

/-- A handle is queued, scheduled or done. -/
theorem nodup_live (h : m.Inv next done) :
    (m.queuedReads.map Prod.fst ++ m.scheduledReads.map Prod.fst ++ done).Nodup :=
  h.live.nodup_iff.mpr List.nodup_range

/-- A READ is queued or scheduled as long as it was not returned. -/
theorem mem_live (h : m.Inv next done) {handle : Handle} :
    handle ∈ m.queuedReads.map Prod.fst ∨ handle ∈ m.scheduledReads.map Prod.fst ↔
      handle < next ∧ handle ∉ done := by
  have hd := (List.nodup_append.mp h.nodup_live).2.2
  rw [← List.mem_append, ← List.mem_range, ← h.live.mem_iff, List.mem_append (t := done)]
  exact ⟨fun hm => ⟨.inl hm, fun hdone => hd _ hm _ hdone rfl⟩, fun hm => hm.1.resolve_right hm.2⟩

/-- The READ at the front of the queue is scheduled, with a buffer that no other READ holds. -/
theorem schedule {handle : Handle} {index : Index} {job : JobHandle} {r' : Reader}
    {q : List (Handle × Index)}
    (h : ({ m with queuedReads := (handle, index) :: q } : ManagedReader).Inv next done)
    (hr : m.reader.read index = (r', some job)) :
    handle ∉ m.scheduledReads.map Prod.fst ∧ job ∉ m.reader.held ∧
      ({ m with
        reader := r'
        queuedReads := q
        scheduledReads := m.scheduledReads ++ [(handle, job)] } : ManagedReader).Inv next done := by
  obtain ⟨hb, hp, -, hheld⟩ := Reader.read_some hr
  have hplaces := h.places.nodup_iff.mpr h.nodup
  change (m.reader.bufferPool ++ m.reader.held).Nodup at hplaces
  rw [hp] at hplaces
  refine ⟨fun hm => ?_, fun hm => ?_, ⟨hb ▸ h.nodup, ?_, ?_, h.abandoned, ?_, h.returned⟩⟩
  · exact (List.nodup_append.mp (List.nodup_append.mp h.nodup_live).1).2.2 _ List.mem_cons_self _
      hm rfl
  · exact (List.nodup_append.mp hplaces).2.2 job
      (List.mem_append_right _ (List.mem_singleton_self _)) job hm rfl
  · refine List.perm_iff_count.mpr fun b => ?_
    have h₁ := List.perm_iff_count.mp h.places b
    have h₂ := List.perm_iff_count.mp hheld b
    rw [hp] at h₁
    rw [hb]
    simp only [List.count_append, List.count_cons, List.count_nil] at h₁ h₂ ⊢
    omega
  · refine List.perm_iff_count.mpr fun b => ?_
    have h₁ := List.perm_iff_count.mp h.jobs b
    have h₂ := List.perm_iff_count.mp hheld b
    simp only [List.map_append, List.map_cons, List.map_nil, List.count_append,
      List.count_cons, List.count_nil] at h₁ h₂ ⊢
    omega
  · refine List.perm_iff_count.mpr fun b => ?_
    have h₁ := List.perm_iff_count.mp h.live b
    simp only [List.map_append, List.map_cons, List.map_nil, List.count_append,
      List.count_cons, List.count_nil] at h₁ ⊢
    omega

/-- The queue is given to the reader, under the handles it holds. -/
theorem pushToReader {q : List (Handle × Index)}
    (h : ({ m with queuedReads := q } : ManagedReader).Inv next done) :
    (ManagedReader.pushToReader q (q.map Prod.fst) m).Inv next done := by
  induction q generalizing m with
  | nil => exact h
  | cons x q ih =>
      obtain ⟨handle, index⟩ := x
      unfold ManagedReader.pushToReader
      split
      · exact h
      · next r' job hr =>
          obtain ⟨hnot, -, hi⟩ := h.schedule hr
          simp only [List.map_cons, List.headD_cons, List.tail_cons]
          rw [Assoc.tryEmplace_of_notMem hnot]
          exact ih hi

/-- A READ more, under the next handle. -/
theorem enqueue (h : m.Inv next done) (index : Index) :
    ({ m with queuedReads := m.queuedReads ++ [(next, index)] } : ManagedReader).Inv (next + 1)
      done := by
  refine ⟨h.nodup, h.places, h.jobs, h.abandoned, ?_, h.returned⟩
  refine List.perm_iff_count.mpr fun b => ?_
  have h₁ := List.perm_iff_count.mp h.live b
  rw [List.range_succ]
  simp only [List.map_append, List.map_cons, List.map_nil, List.count_append, List.count_cons,
    List.count_nil] at h₁ ⊢
  omega

/-- The new READ is queued, and what the pool has buffers for is scheduled. -/
theorem read (h : m.Inv next done) (index : Index) :
    (m.read next index (m.queuedReads.map Prod.fst ++ [next])).Inv (next + 1) done := by
  have hq : m.queuedReads.map Prod.fst ++ [next] =
      (m.queuedReads ++ [(next, index)]).map Prod.fst := by rw [List.map_append]; rfl
  rw [ManagedReader.read, hq]
  exact pushToReader (h.enqueue index)

/-- **A READ that was returned** is released, or leaves the queue. -/
theorem release (h : m.Inv next done) {handle : Handle} (hlt : handle < next)
    (hdone : handle ∉ done) :
    ∃ m', m.release handle ((m.scheduledReads.lookup handle).getD 0) = .ok m' ∧
      m'.Inv next (done ++ [handle]) := by
  unfold ManagedReader.release
  cases hl : m.scheduledReads.lookup handle with
  | some job =>
      have hp := Assoc.perm_of_lookup hl
      have hnot : job ∉ m.toRelease := fun hm =>
        (List.nodup_append.mp h.nodup_jobs).2.2 _
          (List.mem_map.mpr ⟨_, Assoc.mem_of_lookup hl, rfl⟩) _ hm rfl
      refine ⟨_, rfl, ⟨h.nodup, h.places, ?_, ?_, ?_, ?_⟩⟩
      · refine List.perm_iff_count.mpr fun b => ?_
        have h₁ := List.perm_iff_count.mp h.jobs b
        have h₂ := List.perm_iff_count.mp (hp.map Prod.snd) b
        simp only [Option.getD_some, if_neg hnot, List.map_cons, List.count_append, List.count_cons,
          List.count_nil] at h₁ h₂ ⊢
        omega
      · simp only [Option.getD_some, if_neg hnot, List.map_append]
        exact h.abandoned.append_right [job]
      · refine List.perm_iff_count.mpr fun b => ?_
        have h₁ := List.perm_iff_count.mp h.live b
        have h₂ := List.perm_iff_count.mp (hp.map Prod.fst) b
        simp only [List.map_cons, List.count_append, List.count_cons, List.count_nil] at h₁ h₂ ⊢
        omega
      · refine List.perm_iff_count.mpr fun b => ?_
        have h₁ := List.perm_iff_count.mp h.returned b
        simp only [List.map_append, List.map_cons, List.map_nil, List.count_append,
          List.count_cons, List.count_nil] at h₁ ⊢
        omega
  | none =>
      have hq : handle ∈ m.queuedReads.map Prod.fst :=
        (h.mem_live.mpr ⟨hlt, hdone⟩).resolve_right (Assoc.lookup_eq_none.mp hl)
      obtain ⟨index, hi⟩ := Option.isSome_iff_exists.mp (Assoc.lookup_isSome.mpr hq)
      have hp := Assoc.perm_of_lookup hi
      simp only [if_pos hq]
      refine ⟨_, rfl, ⟨h.nodup, h.places, h.jobs, h.abandoned, ?_, ?_⟩⟩
      · refine List.perm_iff_count.mpr fun b => ?_
        have h₁ := List.perm_iff_count.mp h.live b
        have h₂ := List.perm_iff_count.mp (hp.map Prod.fst) b
        simp only [List.map_cons, List.count_append, List.count_cons, List.count_nil] at h₁ h₂ ⊢
        omega
      · refine List.perm_iff_count.mpr fun b => ?_
        have h₁ := List.perm_iff_count.mp h.returned b
        simp only [List.count_append, List.count_cons, List.count_nil] at h₁ ⊢
        omega

end Inv

/-! ### Releasing the jobs abandoned -/

/-- `tryRelease` releases jobs that it found completed. -/
theorem tryRelease_ok (jobs : List JobHandle) (m : ManagedReader) :
    ∃ m', tryRelease jobs m = .ok m' := by
  induction jobs generalizing m with
  | nil => exact ⟨m, rfl⟩
  | cons job jobs ih =>
      unfold tryRelease
      cases hp : m.reader.poll job with
      | none => exact ih m
      | some v =>
          rw [Reader.release, hp]
          exact ih _

/-- What is left to release was there before, and is not completed if it was looked at. -/
structure Released (jobs : List JobHandle) (m m' : ManagedReader) : Prop where
  queuedReads : m'.queuedReads = m.queuedReads
  toRelease : ∀ job ∈ m'.toRelease, job ∈ m.toRelease ∧
    (job ∈ jobs → m'.reader.poll job = none)
  poll : ∀ job, m.reader.poll job = none → m'.reader.poll job = none

/-- Those of the released that completed return. -/
theorem Inv.tryRelease {jobs : List JobHandle} (h : m.Inv next done) (hn : jobs.Nodup)
    (hj : ∀ job ∈ jobs, job ∈ m.toRelease) (ht : ManagedReader.tryRelease jobs m = .ok m') :
    m'.Inv next done ∧ Released jobs m m' := by
  induction jobs generalizing m with
  | nil =>
      cases ht
      exact ⟨h, rfl, fun job hm => ⟨hm, (nomatch ·)⟩, fun _ hp => hp⟩
  | cons job jobs ih =>
      obtain ⟨hnot, hn⟩ := List.nodup_cons.mp hn
      unfold ManagedReader.tryRelease at ht
      cases hp : m.reader.poll job with
      | none =>
          rw [hp] at ht
          obtain ⟨hi, hr⟩ := ih h hn (fun j hm => hj j (List.mem_cons_of_mem _ hm)) ht
          refine ⟨hi, hr.queuedReads, fun j hm => ⟨(hr.toRelease j hm).1, fun hmem => ?_⟩, hr.poll⟩
          rcases List.mem_cons.mp hmem with rfl | hmem
          · exact hr.poll j hp
          · exact (hr.toRelease j hm).2 hmem
      | some v =>
          rw [hp] at ht
          cases hrel : m.reader.release job with
          | error e => rw [Reader.release, hp] at hrel; cases hrel
          | ok reader =>
              rw [hrel] at ht
              obtain ⟨hb, hpool, hheld, hc⟩ := Reader.release_cases hrel
              have hjob := hj job List.mem_cons_self
              have hab : job ∈ m.abandoned.map Prod.fst := h.abandoned.mem_iff.mp hjob
              obtain ⟨handle, hh⟩ := Option.isSome_iff_exists.mp (Assoc.lookup_isSome.mpr hab)
              have hpab := Assoc.perm_of_lookup hh
              have hperm := List.perm_cons_erase hjob
              have hnd := (List.nodup_append.mp h.nodup_jobs).2.1
              have hi : ({ m with
                  reader
                  toRelease := m.toRelease.erase job
                  abandoned := Assoc.erase m.abandoned job
                  released := m.released ++ (m.abandoned.lookup job).toList } :
                  ManagedReader).Inv next done := by
                refine ⟨hb ▸ h.nodup, ?_, ?_, ?_, h.live, ?_⟩
                · refine List.perm_iff_count.mpr fun b => ?_
                  have h₁ := List.perm_iff_count.mp h.places b
                  have h₂ := List.perm_iff_count.mp hheld b
                  rw [hpool, hb]
                  simp only [List.count_append, List.count_cons, List.count_nil] at h₁ h₂ ⊢
                  omega
                · refine List.perm_iff_count.mpr fun b => ?_
                  have h₁ := List.perm_iff_count.mp h.jobs b
                  have h₂ := List.perm_iff_count.mp hheld b
                  have h₃ := List.perm_iff_count.mp hperm b
                  simp only [List.count_append, List.count_cons] at h₁ h₂ h₃ ⊢
                  omega
                · refine List.perm_iff_count.mpr fun b => ?_
                  have h₁ := List.perm_iff_count.mp h.abandoned b
                  have h₂ := List.perm_iff_count.mp (hpab.map Prod.fst) b
                  have h₃ := List.perm_iff_count.mp hperm b
                  simp only [List.map_cons, List.count_cons] at h₁ h₂ h₃ ⊢
                  omega
                · refine List.perm_iff_count.mpr fun b => ?_
                  have h₁ := List.perm_iff_count.mp h.returned b
                  have h₂ := List.perm_iff_count.mp (hpab.map Prod.snd) b
                  simp only [hh, Option.toList_some, List.map_cons, List.count_append,
                    List.count_cons, List.count_nil] at h₁ h₂ ⊢
                  omega
              obtain ⟨hi', hr⟩ := ih hi hn (fun j hm => (hnd.mem_erase_iff).mpr
                ⟨fun he => hnot (he ▸ hm), hj j (List.mem_cons_of_mem _ hm)⟩) ht
              refine ⟨hi', hr.queuedReads, fun j hm => ?_, fun j hnone => hr.poll j ?_⟩
              · obtain ⟨hmem, hpoll⟩ := hr.toRelease j hm
                obtain ⟨hne, hmem⟩ := hnd.mem_erase_iff.mp hmem
                exact ⟨hmem, fun hj' => hpoll ((List.mem_cons.mp hj').resolve_left hne)⟩
              · change reader.completedReads.lookup j = none
                rw [hc, Assoc.lookup_eq_none]
                exact fun hm => Assoc.lookup_eq_none.mp hnone
                  ((List.eraseP_sublist.map Prod.fst).mem hm)

/-- The queue is given to the reader: nothing is completed, nothing more is to be released. -/
theorem pushToReader_frame (q : List (Handle × Index)) (stale : List Handle) (m : ManagedReader) :
    (pushToReader q stale m).toRelease = m.toRelease ∧
      (pushToReader q stale m).reader.completedReads = m.reader.completedReads := by
  induction q generalizing stale m with
  | nil => exact ⟨rfl, rfl⟩
  | cons x q ih =>
      unfold pushToReader
      split
      · exact ⟨rfl, rfl⟩
      · next r' job hr =>
          obtain ⟨ht, hc⟩ := ih stale.tail { m with
            reader := r'
            scheduledReads := Assoc.tryEmplace m.scheduledReads (stale.headD 0) job }
          exact ⟨ht, hc.trans (Reader.read_some hr).2.2.1⟩

/-- After a tick, no job to be released is completed; all the buffers are in the pool if no READ
is queued, scheduled or outstanding. -/
structure Settled (m : ManagedReader) : Prop where
  released : ∀ job ∈ m.toRelease, m.reader.poll job = none
  restored : m.queuedReads = [] → m.scheduledReads = [] → m.reader.queuedReads = [] →
    m.reader.outstandingReads = [] → m.reader.bufferPool.Perm m.reader.buffers

/-- A tick, up to `pushToReader`. -/
theorem Inv.tick_cases {wcs : List Completion} {stale : List Handle} (h : m.Inv next done)
    (ht : m.tick wcs stale = .ok m') : ∃ reader m₂, m.reader.tick wcs = .ok reader ∧
      ManagedReader.tryRelease m.toRelease { m with reader } = .ok m₂ ∧ m₂.Inv next done ∧
      Released m.toRelease { m with reader } m₂ ∧
      m' = ManagedReader.pushToReader m.queuedReads stale m₂ := by
  obtain ⟨reader, hr, ht⟩ := bind_eq_ok.mp ht
  obtain ⟨hb, hp, hheld⟩ := Reader.tick_spec h.nodup_held hr
  have h₁ : ({ m with reader } : ManagedReader).Inv next done :=
    ⟨hb ▸ h.nodup, by rw [hb, hp]; exact (hheld.append_left _).trans h.places,
      hheld.trans h.jobs, h.abandoned, h.live, h.returned⟩
  obtain ⟨m₂, hrel, ht⟩ := bind_eq_ok.mp ht
  cases ht
  obtain ⟨h₂, hreleased⟩ := h₁.tryRelease (List.nodup_append.mp h.nodup_jobs).2.1
    (fun _ hm => hm) hrel
  have hq : m₂.queuedReads = m.queuedReads := hreleased.queuedReads
  exact ⟨reader, m₂, hr, hrel, h₂, hreleased, by rw [hq]⟩

/-- Those that were queued are scheduled as buffers return. -/
theorem Inv.tick {wcs : List Completion} (h : m.Inv next done)
    (ht : m.tick wcs (m.queuedReads.map Prod.fst) = .ok m') : m'.Inv next done ∧ m'.Settled := by
  obtain ⟨reader, m₂, -, -, h₂, hreleased, rfl⟩ := h.tick_cases ht
  have hq : m₂.queuedReads = m.queuedReads := hreleased.queuedReads
  rw [← hq]
  have h₃ := Inv.pushToReader h₂
  obtain ⟨hto, hc⟩ := pushToReader_frame m₂.queuedReads (m₂.queuedReads.map Prod.fst) m₂
  have hnone : ∀ job ∈ (ManagedReader.pushToReader m₂.queuedReads (m₂.queuedReads.map Prod.fst)
      m₂).toRelease, (ManagedReader.pushToReader m₂.queuedReads (m₂.queuedReads.map Prod.fst)
      m₂).reader.poll job = none := by
    intro job hm
    rw [hto] at hm
    rw [Reader.poll, hc]
    exact (hreleased.toRelease job hm).2 (hreleased.toRelease job hm).1
  refine ⟨h₃, hnone, fun _ hs hrq hro => ?_⟩
  -- a READ that is completed and not scheduled would be one to release
  have hheld : (ManagedReader.pushToReader m₂.queuedReads (m₂.queuedReads.map Prod.fst)
      m₂).reader.held = [] := by
    refine List.eq_nil_iff_forall_not_mem.mpr fun job hm => ?_
    have hto' := h₃.jobs.mem_iff.mp hm
    rw [hs] at hto'
    rw [Reader.held, hrq, hro] at hm
    exact Assoc.lookup_eq_none.mp (hnone job hto') hm
  have hplaces := h₃.places
  rwa [hheld, List.append_nil] at hplaces

/-- Each buffer is in one place; each one held is held for a READ that is scheduled or to be
released; of the READs returned (`done`), each one is still to be released, was released once, or
never held a buffer. -/
structure Conserves (done : List Handle) (m : ManagedReader) : Prop where
  distinct : m.reader.buffers.Nodup
  places : (m.reader.bufferPool ++ m.reader.queuedReads.map Prod.fst ++
    m.reader.outstandingReads.map Prod.fst ++ m.reader.completedReads.map Prod.fst).Perm
      m.reader.buffers
  jobs : (m.reader.queuedReads.map Prod.fst ++ m.reader.outstandingReads.map Prod.fst ++
    m.reader.completedReads.map Prod.fst).Perm (m.scheduledReads.map Prod.snd ++ m.toRelease)
  abandoned : m.toRelease.Perm (m.abandoned.map Prod.fst)
  once : done.Nodup
  returned : (m.abandoned.map Prod.snd ++ m.released ++ m.cancelled).Perm done

/-- Every buffer is in the pool, or held for a handle. -/
theorem Inv.conserves (h : m.Inv next done) : m.Conserves done := by
  refine ⟨h.nodup, ?_, ?_, h.abandoned, (List.nodup_append.mp h.nodup_live).2.1, h.returned⟩
  · refine List.perm_iff_count.mpr fun b => ?_
    have h₁ := List.perm_iff_count.mp h.places b
    simp only [Reader.held, List.map_append, List.count_append] at h₁ ⊢
    omega
  · refine List.perm_iff_count.mpr fun b => ?_
    have h₁ := List.perm_iff_count.mp h.jobs b
    simp only [Reader.held, List.map_append, List.count_append] at h₁ ⊢
    omega

end ManagedReader

/-! ### All the hosts -/

namespace ReplicatedReader

variable {s s' : ReplicatedReader}

/-- The invariant of every host. -/
structure Inv (s : ReplicatedReader) : Prop where
  hosts : s.readers ≠ []
  inv : ∀ m ∈ s.readers, m.Inv s.nextHandle (s.results.map Prod.fst)

/-- All the buffers are in the pools. -/
theorem inv_init (h : Init s) : s.Inv := by
  obtain ⟨pools, hne, hn, rfl⟩ := h
  refine ⟨fun hnil => hne (List.map_eq_nil_iff.mp hnil), fun m hm => ?_⟩
  obtain ⟨pool, hp, rfl⟩ := List.mem_map.mp hm
  refine ⟨hn pool hp, ?_, .nil, .nil, .nil, .nil⟩
  change (pool ++ []).Perm pool
  rw [List.append_nil]

theorem readAll_spec {next : Handle} {done : List Handle} (index : Index)
    {ms : List ManagedReader} (h : ∀ m ∈ ms, m.Inv next done) :
    (readAll next index ms (ms.map fun m => m.queuedReads.map Prod.fst ++ [next])).length =
        ms.length ∧
      ∀ m ∈ readAll next index ms (ms.map fun m => m.queuedReads.map Prod.fst ++ [next]),
        m.Inv (next + 1) done := by
  induction ms with
  | nil => exact ⟨rfl, fun _ hm => nomatch hm⟩
  | cons m ms ih =>
      obtain ⟨hl, hi⟩ := ih fun m' hm => h m' (List.mem_cons_of_mem _ hm)
      refine ⟨congrArg (· + 1) hl, fun m' hm => ?_⟩
      rcases List.mem_cons.mp hm with rfl | hm
      · exact (h m List.mem_cons_self).read index
      · exact hi m' hm

/-- Every host gives its READ back. -/
theorem releaseAll_ok {next handle : Handle} {done : List Handle} {ms : List ManagedReader}
    (h : ∀ m ∈ ms, m.Inv next done) (hlt : handle < next) (hdone : handle ∉ done) :
    ∃ ms', releaseAll handle ms (ms.map fun m => (m.scheduledReads.lookup handle).getD 0) =
        .ok ms' ∧ ms'.length = ms.length ∧ ∀ m ∈ ms', m.Inv next (done ++ [handle]) := by
  induction ms with
  | nil => exact ⟨[], rfl, rfl, fun _ hm => nomatch hm⟩
  | cons m ms ih =>
      obtain ⟨m', hm', hi⟩ := (h m List.mem_cons_self).release hlt hdone
      obtain ⟨ms', hms', hl, his⟩ := ih fun m' hm => h m' (List.mem_cons_of_mem _ hm)
      refine ⟨m' :: ms', bind_eq_ok.mpr ⟨m', hm', bind_eq_ok.mpr ⟨ms', hms', rfl⟩⟩,
        congrArg (· + 1) hl, fun x hx => ?_⟩
      rcases List.mem_cons.mp hx with rfl | hx
      · exact hi
      · exact his x hx

theorem tickAll_spec {next : Handle} {done : List Handle} {ms ms' : List ManagedReader}
    {wcs : List (List Completion)} (h : ∀ m ∈ ms, m.Inv next done)
    (ht : tickAll ms wcs (ms.map fun m => m.queuedReads.map Prod.fst) = .ok ms') :
    ms'.length = ms.length ∧ ∀ m ∈ ms', m.Inv next done ∧ m.Settled := by
  induction ms generalizing ms' wcs with
  | nil => cases ht; exact ⟨rfl, fun _ hm => nomatch hm⟩
  | cons m ms ih =>
      obtain ⟨m', hm', ht⟩ := bind_eq_ok.mp ht
      obtain ⟨ms₁, hms, ht⟩ := bind_eq_ok.mp ht
      cases ht
      obtain ⟨hl, hi⟩ := ih (fun m' hm => h m' (List.mem_cons_of_mem _ hm)) hms
      refine ⟨congrArg (· + 1) hl, fun x hx => ?_⟩
      rcases List.mem_cons.mp hx with rfl | hx
      · exact (h m List.mem_cons_self).tick hm'
      · exact hi x hx

/-- A READ that is returned was not returned before. -/
theorem Inv.mem_polled (h : s.Inv) {handle : Handle} (hp : s.polled handle ≠ []) :
    handle < s.nextHandle ∧ handle ∉ s.results.map Prod.fst := by
  obtain ⟨x, hx⟩ := List.exists_mem_of_ne_nil _ hp
  obtain ⟨m, hm, hpoll⟩ := List.mem_filterMap.mp hx
  obtain ⟨job, hj, -⟩ := Option.bind_eq_some_iff.mp hpoll
  exact (h.inv m hm).mem_live.mp
    (.inr (List.mem_map.mpr ⟨(handle, job), Assoc.mem_of_lookup hj, rfl⟩))

/-- **What `poll` does**: nothing, or it returns a READ for the first time. -/
theorem poll_cases (h : s.Inv) (handle : Handle) (freed : List JobHandle) :
    s.poll handle freed = .ok (s, none) ∨ ∃ x, handle < s.nextHandle ∧
      handle ∉ s.results.map Prod.fst ∧ s.poll handle freed =
        (releaseAll handle s.readers freed).map fun readers =>
          ({ s with
            readers
            results := s.results ++ [(handle, x)] }, some x) := by
  unfold poll
  split
  · exact .inl rfl
  · next hlen =>
      split
      · exact .inl rfl
      · next x hx =>
          have hne : s.polled handle ≠ [] := by
            intro hnil
            rw [hnil] at hlen
            have := List.length_pos_iff.mpr h.hosts
            exact hlen (Nat.div_pos (by omega) (by decide))
          obtain ⟨hlt, hdone⟩ := h.mem_polled hne
          refine .inr ⟨x, hlt, hdone, ?_⟩
          cases releaseAll handle s.readers freed <;> rfl

/-- Whatever the call, when no dangling handle is read. -/
theorem inv_step {l : Label} (h : s.Inv) (hi : s.Intact l) (hs : Step s l s') : s'.Inv := by
  cases l with
  | read index stale =>
      cases hi
      cases hs
      obtain ⟨hl, hinv⟩ := readAll_spec index h.inv
      exact ⟨fun hnil => h.hosts (List.length_eq_zero_iff.mp (hl.symm.trans (by
        rw [show readAll _ _ _ _ = [] from hnil]; rfl))), hinv⟩
  | poll handle freed =>
      cases hi
      rcases poll_cases h handle
        (s.readers.map fun m => (m.scheduledReads.lookup handle).getD 0) with
        he | ⟨x, hlt, hdone, he⟩
      · rw [Step, ReplicatedReader.next, he] at hs
        cases hs
        exact h
      · obtain ⟨ms', hms, hl, hinv⟩ := releaseAll_ok h.inv hlt hdone
        rw [Step, ReplicatedReader.next, he, hms] at hs
        cases hs
        refine ⟨fun hnil => h.hosts (List.length_eq_zero_iff.mp (hl.symm.trans (by
          rw [show ms' = [] from hnil]; rfl))), fun m hm => ?_⟩
        rw [List.map_append]
        exact hinv m hm
  | tick wcs stale =>
      cases hi
      obtain ⟨ms', hms, hs⟩ := bind_eq_ok.mp hs
      cases hs
      obtain ⟨hl, hinv⟩ := tickAll_spec h.inv hms
      exact ⟨fun hnil => h.hosts (List.length_eq_zero_iff.mp (hl.symm.trans (by
        rw [show ms' = [] from hnil]; rfl))), fun m hm => (hinv m hm).1⟩

/-! ### Nothing is released that is not there -/

/-- Whatever was read in its place, a release succeeds. -/
theorem releaseAll_isOk {next handle : Handle} {done : List Handle} {ms : List ManagedReader}
    (h : ∀ m ∈ ms, m.Inv next done) (hlt : handle < next) (hdone : handle ∉ done)
    (freed : List JobHandle) : ∃ ms', releaseAll handle ms freed = .ok ms' := by
  induction ms generalizing freed with
  | nil => exact ⟨[], rfl⟩
  | cons m ms ih =>
      obtain ⟨m', hm'⟩ : ∃ m', m.release handle (freed.headD 0) = .ok m' := by
        unfold ManagedReader.release
        split
        · exact ⟨_, rfl⟩
        · next hl =>
            have hq := ((h m List.mem_cons_self).mem_live.mpr ⟨hlt, hdone⟩).resolve_right
              (Assoc.lookup_eq_none.mp hl)
            rw [if_pos hq]
            exact ⟨_, rfl⟩
      obtain ⟨ms', hms'⟩ := ih (fun m' hm => h m' (List.mem_cons_of_mem _ hm)) freed.tail
      exact ⟨m' :: ms', bind_eq_ok.mpr ⟨m', hm', bind_eq_ok.mpr ⟨ms', hms', rfl⟩⟩⟩

/-- A tick fails by the hosts' fault. -/
theorem tickAll_error {ms : List ManagedReader} {wcs : List (List Completion)}
    {stale : List (List Handle)} {e : Error} (h : tickAll ms wcs stale = .error e) :
    e ≠ .jobNotFound ∧ e ≠ .eraseEnd := by
  induction ms generalizing wcs stale with
  | nil => cases h
  | cons m ms ih =>
      unfold tickAll at h
      cases hm : m.tick (wcs.headD []) (stale.headD []) with
      | ok m' =>
          rw [hm] at h
          cases hms : tickAll ms wcs.tail stale.tail with
          | ok ms' =>
              simp only [hms] at h
              cases h
          | error e' =>
              simp only [hms] at h
              cases h
              exact ih hms
      | error e' =>
          rw [hm] at h
          cases h
          unfold ManagedReader.tick at hm
          cases hr : m.reader.tick (wcs.headD []) with
          | ok reader =>
              rw [hr] at hm
              obtain ⟨m₂, hm₂⟩ := ManagedReader.tryRelease_ok m.toRelease { m with reader }
              simp only [bind, Except.bind, hm₂] at hm
              cases hm
          | error e'' =>
              rw [hr] at hm
              cases hm
              unfold Reader.tick at hr
              split at hr
              · cases hr
              · cases hp : Reader.pollCompletion (wcs.headD []) m.reader with
                | ok r' => rw [hp] at hr; cases hr
                | error e₃ =>
                    rw [hp] at hr
                    cases hr
                    exact Reader.pollCompletion_error hp

/-- What the readers keep: every host conserves its buffers, and nothing is released that is not
there. -/
structure Conserved (s : ReplicatedReader) : Prop where
  hosts : ∀ m ∈ s.readers, m.Conserves (s.results.map Prod.fst)
  safe : ∀ l, s.next l ≠ .error .jobNotFound ∧ s.next l ≠ .error .eraseEnd

theorem Inv.conserved (h : s.Inv) : s.Conserved := by
  refine ⟨fun m hm => (h.inv m hm).conserves, fun l => ?_⟩
  cases l with
  | read index stale => exact ⟨nofun, nofun⟩
  | poll handle freed =>
      rcases poll_cases h handle freed with he | ⟨x, hlt, hdone, he⟩
      · rw [ReplicatedReader.next, he]
        exact ⟨nofun, nofun⟩
      · obtain ⟨ms', hms⟩ := releaseAll_isOk h.inv hlt hdone freed
        rw [ReplicatedReader.next, he, hms]
        exact ⟨nofun, nofun⟩
  | tick wcs stale =>
      rw [ReplicatedReader.next, ReplicatedReader.tick]
      cases ht : tickAll s.readers wcs stale with
      | ok ms' => exact ⟨nofun, nofun⟩
      | error e =>
          obtain ⟨h₁, h₂⟩ := tickAll_error ht
          exact ⟨fun he => h₁ (by cases he; rfl), fun he => h₂ (by cases he; rfl)⟩

/-- **No buffer is lost**, when what is read in the elements just erased is what they held: in
every state each buffer is in one place and each READ returned is released once; after a tick
nothing waits for release that is completed, and when no READ is pending all the buffers are in
the pool. -/
theorem conserved_of_reachable (h : Reachable Init Step Intact s) :
    s.Conserved ∧ ∀ wcs stale s', s.Intact (.tick wcs stale) → Step s (.tick wcs stale) s' →
      ∀ m ∈ s'.readers, m.Settled := by
  have hinv : s.Inv := h.induct (P := Inv) (fun _ => inv_init) fun _ _ _ _ hi hg hs =>
    inv_step hi hg hs
  refine ⟨hinv.conserved, fun wcs stale s' hi hs => ?_⟩
  cases hi
  obtain ⟨ms', hms, hs⟩ := bind_eq_ok.mp hs
  cases hs
  exact fun m hm => ((tickAll_spec hinv.inv hms).2 m hm).2

end ReplicatedReader

namespace Example

/-- One host, with one buffer. -/
def single : ReplicatedReader where
  readers := [{ reader := { buffers := [1], bufferPool := [1] } }]

/-- A READ, its answer, and `poll`, whose `release` reads `freed`. -/
def readOnce (freed : JobHandle) : List Label :=
  [.read 0 [[0]], .tick [[⟨1, true, (some ⟨2, []⟩, none), false⟩]] [[]], .poll 0 [freed]]

theorem init_single : ReplicatedReader.Init single :=
  ⟨[[1]], List.cons_ne_nil _ _, by decide, rfl⟩

end Example

namespace ReplicatedReader

/-- `release` reads 0 in the element it erased: nothing releases the one buffer any more. -/
theorem buffer_lost : ¬ ∀ s, Reachable Init Step Always s →
    s.Conserved ∧ ∀ wcs stale s', Step s (.tick wcs stale) s' → ∀ m ∈ s'.readers, m.Settled := by
  intro h
  obtain ⟨s, hs, hsee⟩ : ∃ s, Reachable Init Step (fun _ _ => True) s ∧
      decide (s.readers.map (fun m => (m.reader.queuedReads ++ m.reader.outstandingReads,
        m.reader.completedReads.map Prod.fst, m.scheduledReads, m.toRelease)) =
          [([], [1], [], [0])]) = true :=
    exists_reachable Example.single Example.init_single (Example.readOnce 0) (by decide +kernel)
  obtain ⟨m, ms, hm, -⟩ : ∃ m ms, s.readers = m :: ms ∧ True := by
    cases hr : s.readers with
    | nil => rw [hr] at hsee; exact nomatch of_decide_eq_true hsee
    | cons m ms => exact ⟨m, ms, rfl, trivial⟩
  have hsee := of_decide_eq_true hsee
  rw [hm] at hsee
  simp only [List.map_cons, List.cons.injEq, Prod.mk.injEq, List.append_eq_nil_iff] at hsee
  obtain ⟨⟨⟨hq, ho⟩, hc, hsch, hto⟩, -⟩ := hsee
  have hjobs := ((h s hs.always).1.hosts m (hm ▸ List.mem_cons_self)).jobs
  rw [hq, ho, hc, hsch, hto] at hjobs
  exact absurd hjobs (by decide)

/-- When it reads the job, the tick after puts the buffer back. -/
theorem conserved_single : ∃ s, Reachable Init Step Intact s ∧ s.Conserved ∧
    s.readers.map (fun m => m.reader.bufferPool) = [[1]] ∧
      s.readers.map (fun m => m.released) = [[0]] := by
  obtain ⟨s, hs, hsee⟩ : ∃ s, Reachable Init Step Intact s ∧
      decide (s.readers.map (fun m => m.reader.bufferPool) = [[1]] ∧
        s.readers.map (fun m => m.released) = [[0]]) = true :=
    exists_reachable Example.single Example.init_single (Example.readOnce 1 ++ [.tick [[]] [[]]])
      (by decide +kernel)
  exact ⟨s, hs, (conserved_of_reachable hs).1, of_decide_eq_true hsee⟩

end ReplicatedReader

end Ubft.Swmr.Readers

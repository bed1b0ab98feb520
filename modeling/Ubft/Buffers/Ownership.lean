import Ubft.Buffers.Buffer
import Ubft.Support.Assoc

/-!
# Buffers — who owns the storage

`buffer.hpp`'s `Pool` and the `Buffer`s that it hands out.  A `Buffer` returns to the vector of its
pool when it is destroyed, unless its move indicator says that it was moved from.  The moves are the
default ones: an assignment frees the storage it assigns over, and leaves the indicator of its
target set when it was.

`known` is the history of the storages that were in the pool.  In the runs that assign over none of
them and destroy none of them in a `Buffer` whose indicator is set, each is in one `Buffer` or back
in the pool, and the first step that does otherwise loses one (`conserves_storages`).
-/

namespace Ubft.Buffers

namespace Buffer

/-- `Buffer(Buffer &&)`: the new buffer, and what is left of the old one. -/
def moveConstruct (o : Buffer) : Buffer × Buffer :=
  ({ o with moved := false }, { o with
    dynarray := o.dynarray.moved
    moved := true })

/-- `operator=(Buffer &&)` between two buffers: what both are after it. -/
def moveAssign (b o : Buffer) : Buffer × Buffer :=
  ({ o with moved := b.moved }, { o with
    dynarray := o.dynarray.moved
    moved := true })

/-- A buffer assigned to itself: the indicator is not set, and the vector ends up empty. -/
def selfAssign (b : Buffer) : Buffer := { b with dynarray := b.dynarray.moved }

/-- `~Buffer`: what is moved to the home vector, if anything is. -/
def returned (b : Buffer) (fresh : Nat) : Option Buffer :=
  if b.moved || !b.homeVector then none
  else
    match { b with leftOffset := 0 }.resize fresh b.maxSize with
    | .ok b => some { b with homeVector := false }.moveConstruct.1
    -- the destructor would end the program
    | .error _ => none

end Buffer

/-- A pool, its vector with its back first, and the buffers that are alive elsewhere, by name.
`fresh` is the next allocation and `memory` what allocations hold at first. -/
structure State where
  bufferSize : Nat
  memory : Nat → Nat → UInt8
  buffers : List Buffer := []
  objects : List (Nat × Buffer) := []
  fresh : Nat := 0
  known : List Nat := []

/-- What is done with the variables that hold buffers. -/
inductive Cmd where
  | take (x : Nat) (size : Option Nat)
  | resize (x size : Nat)
  | trimLeft (x offset : Nat)
  | moveConstruct (y x : Nat)
  | moveAssign (y x : Nat)
  | destroy (x : Nat)
  deriving DecidableEq, Repr

namespace State

/-- `buffers->emplace_back(buffer_size)`: the buffer, and the state without it. -/
def newBuffer (s : State) : Except BufferError (Buffer × State) :=
  (Buffer.new s.fresh s.bufferSize (s.memory s.fresh)).map fun b =>
    (b, { s with
      fresh := s.fresh + 1
      known := s.fresh :: s.known })

/-- The constructor of the pool, for `n` buffers. -/
def new (bufferSize : Nat) (memory : Nat → Nat → UInt8) : Nat → Except BufferError State
  | 0 => .ok { bufferSize, memory }
  | n + 1 => (new bufferSize memory n).bind fun s =>
    s.newBuffer.map fun (b, s) => { s with buffers := b :: s.buffers }

/-- `~Buffer` of a buffer that is not in the state any more. -/
def giveBack (s : State) (b : Buffer) : State :=
  match b.returned s.fresh with
  | none => s
  | some b => { s with
      buffers := b :: s.buffers
      fresh := s.fresh + 1
      known := b.dynarray.storage.toList ++ s.known }

/-- The back of the vector, which is added if there is none, and the state without it. -/
def popBack (s : State) : Except BufferError (Buffer × State) :=
  match s.buffers with
  | [] => s.newBuffer
  | b :: buffers => .ok (b, { s with buffers })

/-- `Pool::take`, to the buffer `x`.  A buffer that cannot be resized is destroyed. -/
def take (s : State) (x : Nat) (size : Option Nat) : State × Option BufferError :=
  match s.popBack with
  | .error e => (s, some e)
  | .ok (b, s) =>
    let buffer := { b.moveConstruct.1 with homeVector := true }
    match size.elim (.ok buffer) (buffer.resize s.fresh) with
    | .error e => (s.giveBack buffer, some e)
    | .ok buffer => ({ s with
        objects := (x, buffer.moveConstruct.1) :: s.objects
        fresh := s.fresh + 1 }, none)

/-- The buffer `x` is now `b`. -/
def put (s : State) (x : Nat) (b : Buffer) : State :=
  { s with objects := (x, b) :: Assoc.erase s.objects x }

/-- The state after a command and what it threw; nothing when it names a buffer that is not alive,
or constructs one that is. -/
def exec (s : State) : Cmd → Option (State × Option BufferError)
  | .take x size =>
    match s.objects.lookup x with
    | some _ => none
    | none => some (s.take x size)
  | .resize x size => (s.objects.lookup x).map fun b =>
    match b.resize s.fresh size with
    | .ok b => ({ s.put x b with fresh := s.fresh + 1 }, none)
    | .error e => (s, some e)
  | .trimLeft x offset => (s.objects.lookup x).map fun b =>
    match b.trimLeft offset with
    | .ok b => (s.put x b, none)
    | .error e => (s, some e)
  | .moveConstruct y x =>
    match s.objects.lookup y, s.objects.lookup x with
    | none, some b =>
      let s := s.put x b.moveConstruct.2
      some ({ s with objects := (y, b.moveConstruct.1) :: s.objects }, none)
    | _, _ => none
  | .moveAssign y x =>
    match s.objects.lookup y, s.objects.lookup x with
    | some d, some b =>
      if y = x then some (s.put x b.selfAssign, none)
      else some ((s.put x (d.moveAssign b).2).put y (d.moveAssign b).1, none)
    | _, _ => none
  | .destroy x => (s.objects.lookup x).map fun b =>
    ({ s with objects := Assoc.erase s.objects x }.giveBack b, none)

end State

/-- The storages of some buffers. -/
def stores (l : List Buffer) : List Nat := l.filterMap (·.dynarray.storage)

namespace State

/-- The buffers that are alive, in the pool or not. -/
def all (s : State) : List Buffer := s.buffers ++ s.objects.map Prod.snd

/-- Every storage has one owner, and those in the pool are as they were made. -/
structure Conserved (s : State) : Prop where
  owned : ∀ id ∈ s.known,
    (stores s.buffers).count id + (stores (s.objects.map Prod.snd)).count id = 1
  full : ∀ b ∈ s.buffers, b.dynarray.size = s.bufferSize ∧ b.leftOffset = 0
  returned : s.objects = [] → ∀ id ∈ s.known, (stores s.buffers).count id = 1

/-- No storage of the pool is assigned over, nor destroyed in a buffer whose indicator is set. -/
def Careful (s : State) : Cmd → Prop
  | .moveAssign y _ =>
    ∀ b, s.objects.lookup y = some b → ∀ id ∈ b.dynarray.storage, id ∉ s.known
  | .destroy x =>
    ∀ b, s.objects.lookup x = some b → b.moved = true → ∀ id ∈ b.dynarray.storage, id ∉ s.known
  | _ => True

end State

/-! ### What a step does -/

/-- A buffer of a pool of buffers of `size` bytes, whose memory, if it is the pool's, was not
replaced. -/
structure Fits (size : Nat) (known : List Nat) (b : Buffer) : Prop where
  maxSize : b.maxSize = size
  lt : size < 2 ^ 63
  capacity : ∀ id ∈ b.dynarray.storage, id ∈ known → size ≤ b.dynarray.capacity

/-- A buffer as the pool holds it. -/
structure Pooled (size : Nat) (known : List Nat) (b : Buffer) : Prop where
  maxSize : b.maxSize = size
  lt : size < 2 ^ 63
  capacity : size ≤ b.dynarray.capacity
  full : b.dynarray.size = size
  leftOffset : b.leftOffset = 0
  known : ∀ id ∈ b.dynarray.storage, id ∈ known

section

variable {size fresh : Nat} {known known' : List Nat} {b : Buffer} {l l' : List Buffer}

theorem Pooled.fits (h : Pooled size known b) : Fits size known b :=
  ⟨h.maxSize, h.lt, fun _ _ _ => h.capacity⟩

theorem Pooled.mono (h : Pooled size known b) (hk : known ⊆ known') : Pooled size known' b :=
  { h with known := fun id hid => hk (h.known id hid) }

@[simp] theorem stores_nil : stores [] = [] := rfl

/-- A moved buffer has no storage. -/
theorem stores_cons (b : Buffer) (l : List Buffer) :
    stores (b :: l) = b.dynarray.storage.toList ++ stores l := by
  rw [stores, List.filterMap_cons]
  cases b.dynarray.storage <;> rfl

theorem stores_append (l l' : List Buffer) : stores (l ++ l') = stores l ++ stores l' :=
  List.filterMap_append

theorem mem_stores {id : Nat} : id ∈ stores l ↔ ∃ b ∈ l, id ∈ b.dynarray.storage := List.mem_filterMap

theorem mem_stores_singleton {id : Nat} : id ∈ stores [b] ↔ id ∈ b.dynarray.storage := by
  rw [stores_cons, stores_nil, List.append_nil, Option.mem_toList]
  rfl

/-- One buffer has one storage at most. -/
theorem nodup_stores_singleton (b : Buffer) : (stores [b]).Nodup := by
  rw [stores_cons, stores_nil, List.append_nil]
  cases b.dynarray.storage with
  | none => exact .nil
  | some id => exact List.nodup_singleton id

theorem stores_perm (h : l.Perm l') : (stores l).Perm (stores l') := h.filterMap _

end

namespace State

variable {s s' : State} {old new : List Buffer}

/-- The buffers `old` of `s` became the buffers `new` of `s'`, their storages among those of `old`
and the allocations made. -/
structure Moves (s s' : State) (old new : List Buffer) : Prop where
  bufferSize : s'.bufferSize = s.bufferSize
  fresh : s.fresh ≤ s'.fresh
  known : s.known ⊆ s'.known
  known_new : ∀ id ∈ s'.known, id ∈ s.known ∨ id ∈ stores new
  perm : ∃ rest, s.all.Perm (old ++ rest) ∧ s'.all.Perm (new ++ rest)
  stores : ∀ id ∈ stores new, id ∈ stores old ∨ s.fresh ≤ id ∧ id < s'.fresh
  nodup : (Buffers.stores new).Nodup
  fits : ∀ b ∈ new, Fits s'.bufferSize s'.known b
  pooled : ∀ b ∈ s'.buffers, b ∈ s.buffers ∨ Pooled s'.bufferSize s'.known b
  home : ∀ e ∈ s'.objects, e ∈ s.objects ∨ e.2.homeVector = true

/-- What holds in every state, whatever was lost. -/
structure Sound (s : State) : Prop where
  nodup : (Buffers.stores s.all).Nodup
  lt : ∀ id ∈ Buffers.stores s.all, id < s.fresh
  known_lt : ∀ id ∈ s.known, id < s.fresh
  fits : ∀ b ∈ s.all, Fits s.bufferSize s.known b
  pooled : ∀ b ∈ s.buffers, Pooled s.bufferSize s.known b
  home : ∀ e ∈ s.objects, e.2.homeVector = true

/-- No storage of the pool was lost. -/
def Kept (s : State) : Prop := ∀ id ∈ s.known, id ∈ Buffers.stores s.all

/-- No storage is shared that was not before. -/
theorem Sound.moves (h : Sound s) (hm : Moves s s' old new) : Sound s' := by
  obtain ⟨rest, hbefore, hafter⟩ := hm.perm
  have hperm := stores_perm hbefore
  rw [stores_append] at hperm
  have hnodup := hperm.nodup_iff.mp h.nodup
  have hlt : ∀ id ∈ Buffers.stores old ++ Buffers.stores rest, id < s.fresh :=
    fun id hid => h.lt id (hperm.mem_iff.mpr hid)
  -- what is new is not in the buffers that stay
  have hapart : ∀ id ∈ Buffers.stores new, id ∉ Buffers.stores rest := by
    intro id hid hr
    rcases hm.stores id hid with ho | ⟨hge, -⟩
    · exact List.disjoint_of_nodup_append hnodup ho hr
    · exact Nat.not_lt.mpr hge (hlt id (List.mem_append_right _ hr))
  have hafter' := stores_perm hafter
  rw [stores_append] at hafter'
  have hnew : ∀ id ∈ Buffers.stores new, id < s'.fresh := by
    intro id hid
    rcases hm.stores id hid with ho | ⟨-, hlt'⟩
    · exact Nat.lt_of_lt_of_le (hlt id (List.mem_append_left _ ho)) hm.fresh
    · exact hlt'
  refine ⟨?_, fun id hid => ?_, fun id hid => ?_, fun b hb => ?_, fun b hb => ?_, fun e he => ?_⟩
  · rw [hafter'.nodup_iff, List.nodup_append']
    exact ⟨hm.nodup, (List.nodup_append'.mp hnodup).2.1, hapart⟩
  · rcases List.mem_append.mp (hafter'.mem_iff.mp hid) with hid | hid
    · exact hnew id hid
    · exact Nat.lt_of_lt_of_le (hlt id (List.mem_append_right _ hid)) hm.fresh
  · rcases hm.known_new id hid with hid | hid
    · exact Nat.lt_of_lt_of_le (h.known_lt id hid) hm.fresh
    · exact hnew id hid
  · rcases List.mem_append.mp (hafter.mem_iff.mp hb) with hb | hb
    · exact hm.fits b hb
    · have hfits := h.fits b (hbefore.mem_iff.mpr (List.mem_append_right _ hb))
      rw [hm.bufferSize]
      refine ⟨hfits.maxSize, hfits.lt, fun id hid hk => hfits.capacity id hid ?_⟩
      exact (hm.known_new id hk).resolve_right fun hn =>
        hapart id hn (mem_stores.mpr ⟨b, hb, hid⟩)
  · rcases hm.pooled b hb with hb | hb
    · rw [hm.bufferSize]
      exact (h.pooled b hb).mono hm.known
    · exact hb
  · rcases hm.home e he with he | he
    · exact h.home e he
    · exact he

/-- Nothing is lost when no storage of the pool is lost by the buffers that changed. -/
theorem Sound.keeps_iff (h : Sound s) (hk : Kept s) (hm : Moves s s' old new) :
    Kept s' ↔ ∀ id ∈ s.known, id ∈ Buffers.stores old → id ∈ Buffers.stores new := by
  obtain ⟨rest, hbefore, hafter⟩ := hm.perm
  have hperm := stores_perm hbefore
  have hafter' := stores_perm hafter
  rw [stores_append] at hperm hafter'
  have hnodup := hperm.nodup_iff.mp h.nodup
  constructor
  · intro hk' id hid ho
    rcases List.mem_append.mp (hafter'.mem_iff.mp (hk' id (hm.known hid))) with hn | hr
    · exact hn
    · exact absurd hr (List.disjoint_of_nodup_append hnodup ho)
  · intro hnew id hid
    refine hafter'.mem_iff.mpr (List.mem_append.mpr ?_)
    rcases hm.known_new id hid with hid | hn
    · exact (List.mem_append.mp (hperm.mem_iff.mp (hk id hid))).imp_left (hnew id hid)
    · exact .inl hn

/-- What is sound has lost nothing exactly when it is conserved. -/
theorem Sound.conserved_iff (h : Sound s) : Conserved s ↔ Kept s := by
  have hall : Buffers.stores s.all =
      Buffers.stores s.buffers ++ Buffers.stores (s.objects.map Prod.snd) := stores_append _ _
  constructor
  · intro hc id hid
    have hone := hc.owned id hid
    rw [← List.count_append, ← hall] at hone
    exact List.count_pos_iff.mp (hone ▸ Nat.one_pos)
  · intro hk
    have howned : ∀ id ∈ s.known, (Buffers.stores s.buffers).count id +
        (Buffers.stores (s.objects.map Prod.snd)).count id = 1 := by
      intro id hid
      rw [← List.count_append, ← hall]
      exact List.count_eq_one_of_mem h.nodup (hk id hid)
    refine ⟨howned, fun b hb => ⟨(h.pooled b hb).full, (h.pooled b hb).leftOffset⟩, ?_⟩
    intro ho id hid
    have hone := howned id hid
    rwa [ho, List.map_nil, stores_nil, List.count_nil, Nat.add_zero] at hone

end State

/-! ### One step -/

section

variable {size fresh n : Nat} {known : List Nat} {b b' : Buffer}

/-- Within its capacity an array keeps its storage. -/
theorem DynArray.resize_of_le {a : DynArray} (h : n ≤ a.capacity) :
    a.resize fresh n = { a with size := n } := if_pos h

/-- Growing a vector replaces its storage, or keeps it with enough room. -/
theorem DynArray.resize_cases (a : DynArray) (fresh n : Nat) :
    ((a.resize fresh n).storage = a.storage ∧ (a.resize fresh n).capacity = a.capacity ∧
        n ≤ a.capacity) ∨
      (a.capacity < n ∧ (a.resize fresh n).storage = some fresh ∧
        n ≤ (a.resize fresh n).capacity) := by
  unfold resize
  split
  · next hle => exact .inl ⟨rfl, rfl, hle⟩
  · next hgt => exact .inr ⟨Nat.not_le.mp hgt, rfl, Nat.le_max_right _ _⟩

/-- A buffer with room for its initial size is resized in place. -/
theorem Buffer.resize_of_room (hb : b.resize fresh n = .ok b')
    (hroom : b.maxSize ≤ b.dynarray.capacity) :
    b'.dynarray.storage = b.dynarray.storage ∧ b'.dynarray.capacity = b.dynarray.capacity ∧
      b'.maxSize = b.maxSize ∧ b'.homeVector = b.homeVector := by
  obtain ⟨hle, rfl⟩ := resize_eq_ok.mp hb
  rw [DynArray.resize_of_le (hle.trans hroom)]
  exact ⟨rfl, rfl, rfl, rfl⟩

/-- A buffer that was moved from does not return to the pool. -/
theorem Buffer.returned_of_moved (h : b.moved = true) (fresh : Nat) : b.returned fresh = none := by
  rw [returned, h]
  rfl

/-- What returns to the pool is as the pool holds it. -/
theorem Buffer.returned_of_home (fresh : Nat) (hm : b.moved = false) (hh : b.homeVector = true)
    (hf : Fits size known b) :
    ∃ b', b.returned fresh = some b' ∧ b'.dynarray = b.dynarray.resize fresh size ∧
      Pooled size (b'.dynarray.storage.toList ++ known) b' := by
  have hlt := hf.lt
  have hmax := hf.maxSize
  have hmod : (b.maxSize + 0) % 2 ^ 64 = b.maxSize := by omega
  have hres : ({ b with leftOffset := 0 } : Buffer).resize fresh b.maxSize =
      .ok { b with leftOffset := 0, dynarray := b.dynarray.resize fresh b.maxSize } := by
    refine resize_eq_ok.mpr ⟨hmod.le, ?_⟩
    simp only [hmod]
  refine ⟨{ b with
    leftOffset := 0
    dynarray := b.dynarray.resize fresh b.maxSize
    homeVector := false
    moved := false }, ?_, by rw [hmax], ?_⟩
  · rw [returned, if_neg (by rw [hm, hh]; decide), hres]
    rfl
  · refine ⟨hmax, hlt, ?_, ?_, rfl, fun id hid => ?_⟩
    · rw [hmax]
      rcases b.dynarray.resize_cases fresh size with ⟨-, hcap, hle⟩ | ⟨-, -, hle⟩
      · exact hcap ▸ hle
      · exact hle
    · rw [hmax]
      unfold DynArray.resize
      split <;> rfl
    · exact List.mem_append_left _ (Option.mem_toList.mpr hid)

end

namespace State

variable {s s' s₁ : State} {b d : Buffer} {x y size offset : Nat} {e : Option BufferError}

/-- A step that changes nothing. -/
theorem Moves.refl (s : State) : Moves s s [] [] where
  bufferSize := rfl
  fresh := Nat.le_refl _
  known := fun _ h => h
  known_new := fun _ h => .inl h
  perm := ⟨s.all, .refl _, .refl _⟩
  stores := nofun
  nodup := .nil
  fits := nofun
  pooled := fun _ h => .inl h
  home := fun _ h => .inl h

/-- A buffer outside of the pool, and the others. -/
theorem all_perm_of_lookup (h : s.objects.lookup x = some b) :
    s.all.Perm (b :: (s.buffers ++ (Assoc.erase s.objects x).map Prod.snd)) :=
  ((Assoc.perm_of_lookup h).map Prod.snd |>.append_left s.buffers).trans List.perm_middle

/-- An object takes the place of another. -/
theorem all_put (s : State) (x : Nat) (b : Buffer) :
    (s.put x b).all.Perm (b :: (s.buffers ++ (Assoc.erase s.objects x).map Prod.snd)) :=
  List.perm_middle

/-- A buffer in use is replaced by another one. -/
theorem Moves.put (hx : s.objects.lookup x = some b) {b' : Buffer} {n : Nat}
    (hfits : Fits s.bufferSize s.known b') (hhome : b'.homeVector = true)
    (hst : ∀ id ∈ b'.dynarray.storage, id ∈ b.dynarray.storage ∨ s.fresh ≤ id ∧ id < s.fresh + n) :
    Moves s { s.put x b' with fresh := s.fresh + n } [b] [b'] where
  bufferSize := rfl
  fresh := Nat.le_add_right _ _
  known := fun _ h => h
  known_new := fun _ h => .inl h
  perm := ⟨_, all_perm_of_lookup hx, all_put s x b'⟩
  stores id hid := by
    rw [mem_stores_singleton] at hid ⊢
    exact hst id hid
  nodup := nodup_stores_singleton b'
  fits c hc := List.mem_singleton.mp hc ▸ hfits
  pooled _ hc := .inl hc
  home e he := by
    rcases List.mem_cons.mp he with rfl | he
    · exact .inr hhome
    · exact .inl (List.mem_of_mem_eraseP he)

/-- `s'` comes from `s`, and keeps all storages of the pool exactly when `careful`. -/
def Steps (s s' : State) (careful : Prop) : Prop :=
  ∃ old new, Moves s s' old new ∧
    (careful ↔ ∀ id ∈ s.known, id ∈ Buffers.stores old → id ∈ Buffers.stores new)

theorem Steps.refl (s : State) : Steps s s True :=
  ⟨[], [], .refl s, iff_of_true trivial fun _ _ h => h⟩

/-- An object changes, and owns its storage or a fresh one. -/
theorem Steps.put (hx : s.objects.lookup x = some b) {b' : Buffer} {n : Nat} {careful : Prop}
    (hfits : Fits s.bufferSize s.known b') (hhome : b'.homeVector = true)
    (hst : ∀ id ∈ b'.dynarray.storage, id ∈ b.dynarray.storage ∨ s.fresh ≤ id ∧ id < s.fresh + n)
    (hc : careful ↔ ∀ id ∈ s.known, id ∈ b.dynarray.storage → id ∈ b'.dynarray.storage) :
    Steps s { s.put x b' with fresh := s.fresh + n } careful := by
  refine ⟨[b], [b'], .put hx hfits hhome hst, hc.trans ?_⟩
  simp only [mem_stores_singleton]

theorem fits_of_lookup (h : Sound s) (hx : s.objects.lookup x = some b) :
    Fits s.bufferSize s.known b :=
  h.fits b (List.mem_append_right _ (List.mem_map.mpr ⟨_, Assoc.mem_of_lookup hx, rfl⟩))

/-- Every object knows its pool. -/
theorem home_of_lookup (h : Sound s) (hx : s.objects.lookup x = some b) : b.homeVector = true :=
  h.home _ (Assoc.mem_of_lookup hx)

/-- `resize`: the storage stays, or is fresh. -/
theorem steps_resize (h : Sound s) (hx : s.objects.lookup x = some b) {b' : Buffer}
    (hb : b.resize s.fresh size = .ok b') :
    Steps s { s.put x b' with fresh := s.fresh + 1 } True := by
  obtain ⟨hle, hb'⟩ := Buffer.resize_eq_ok.mp hb
  have hfits := fits_of_lookup h hx
  have hmax : b'.maxSize = s.bufferSize := by rw [hb', ← hfits.maxSize]
  have hhome : b'.homeVector = true := by rw [hb', ← home_of_lookup h hx]
  have hdyn : b'.dynarray = b.dynarray.resize s.fresh ((size + b.leftOffset) % 2 ^ 64) := by rw [hb']
  rcases b.dynarray.resize_cases s.fresh ((size + b.leftOffset) % 2 ^ 64) with
    ⟨hst, hcap, -⟩ | ⟨hgt, hst, -⟩
  · rw [← hdyn] at hst hcap
    refine .put hx ⟨hmax, hfits.lt, ?_⟩ hhome ?_ (iff_of_true trivial ?_)
    · rw [hst, hcap]
      exact hfits.capacity
    · rw [hst]
      exact fun id hid => .inl hid
    · rw [hst]
      exact fun id _ hid => hid
  · -- a storage of the pool is large enough
    rw [← hdyn] at hst
    have hnot : ∀ id ∈ b.dynarray.storage, id ∉ s.known := by
      intro id hid hk
      have hcap := hfits.capacity id hid hk
      have hmax := hfits.maxSize
      omega
    refine .put hx ⟨hmax, hfits.lt, fun id hid hk => ?_⟩ hhome (fun id hid => ?_)
      (iff_of_true trivial fun id hk hid => absurd hk (hnot id hid))
    · rw [hst] at hid
      cases hid
      exact absurd (h.known_lt _ hk) (Nat.lt_irrefl _)
    · rw [hst] at hid
      cases hid
      exact .inr ⟨Nat.le_refl _, Nat.lt_succ_self _⟩

/-- `trimLeft`: the storage stays. -/
theorem steps_trimLeft (h : Sound s) (hx : s.objects.lookup x = some b) {b' : Buffer}
    (hb : b.trimLeft offset = .ok b') : Steps s (s.put x b') True := by
  obtain ⟨-, hb'⟩ := Buffer.trimLeft_eq_ok.mp hb
  have hfits := fits_of_lookup h hx
  have hdyn : b'.dynarray = b.dynarray := by rw [hb']
  refine Steps.put (n := 0) hx ⟨?_, hfits.lt, ?_⟩ ?_ ?_ (iff_of_true trivial ?_)
  · rw [hb', ← hfits.maxSize]
  · rw [hdyn]
    exact hfits.capacity
  · rw [hb', ← home_of_lookup h hx]
  · rw [hdyn]
    exact fun id hid => .inl hid
  · rw [hdyn]
    exact fun id _ hid => hid

/-- A buffer assigned to itself loses its storage. -/
theorem steps_selfAssign (h : Sound s) (hx : s.objects.lookup x = some b) :
    Steps s (s.put x b.selfAssign) (∀ id ∈ b.dynarray.storage, id ∉ s.known) := by
  have hfits := fits_of_lookup h hx
  have hhome := home_of_lookup h hx
  refine Steps.put (n := 0) hx ⟨hfits.maxSize, hfits.lt, nofun⟩ hhome nofun ?_
  exact ⟨fun hc id hk hid => absurd hk (hc id hid), fun hc id hid hk => nomatch hc id hk hid⟩

/-- The storage of a buffer goes to another one, which has none or loses its own. -/
theorem stores_moved (b b' : Buffer) (hb' : b'.dynarray = b.dynarray) :
    Buffers.stores [b', { b with
      dynarray := b.dynarray.moved
      moved := true }] = b.dynarray.storage.toList := by
  rw [stores_cons, stores_cons, hb']
  exact List.append_nil _

/-- The move constructor: the storage is the new object's. -/
theorem steps_moveConstruct (h : Sound s) (hx : s.objects.lookup x = some b) :
    Steps s { s.put x b.moveConstruct.2 with
      objects := (y, b.moveConstruct.1) :: (s.put x b.moveConstruct.2).objects } True := by
  have hfits := fits_of_lookup h hx
  have hhome := home_of_lookup h hx
  have hst : Buffers.stores [b.moveConstruct.1, b.moveConstruct.2] = b.dynarray.storage.toList :=
    stores_moved b b.moveConstruct.1 rfl
  refine ⟨[b], [b.moveConstruct.1, b.moveConstruct.2],
    ⟨rfl, Nat.le_refl _, fun _ h => h, fun _ h => .inl h, ⟨_, all_perm_of_lookup hx, ?_⟩,
      fun id hid => ?_, ?_, fun c hc => ?_, fun _ h => .inl h, fun e he => ?_⟩,
    iff_of_true trivial fun id _ hid => ?_⟩
  · exact List.perm_middle.trans (List.perm_middle.cons _)
  · exact .inl (mem_stores_singleton.mpr (Option.mem_toList.mp (hst ▸ hid)))
  · have hone := nodup_stores_singleton b
    rw [stores_cons, stores_nil, List.append_nil] at hone
    exact hst.symm ▸ hone
  · rcases List.mem_cons.mp hc with rfl | hc
    · exact ⟨hfits.maxSize, hfits.lt, hfits.capacity⟩
    · obtain rfl := List.mem_singleton.mp hc
      exact ⟨hfits.maxSize, hfits.lt, nofun⟩
  · rcases List.mem_cons.mp he with rfl | he
    · exact .inr hhome
    · rcases List.mem_cons.mp he with rfl | he
      · exact .inr hhome
      · exact .inl (List.mem_of_mem_eraseP he)
  · exact hst.symm ▸ Option.mem_toList.mpr (mem_stores_singleton.mp hid)

/-- An assignment loses the storage of its target. -/
theorem steps_moveAssign (h : Sound s) (hne : y ≠ x) (hy : s.objects.lookup y = some d)
    (hx : s.objects.lookup x = some b) :
    Steps s ((s.put x (d.moveAssign b).2).put y (d.moveAssign b).1)
      (∀ id ∈ d.dynarray.storage, id ∉ s.known) := by
  have hfits := fits_of_lookup h hx
  have hhome := home_of_lookup h hx
  have hst : Buffers.stores [(d.moveAssign b).1, (d.moveAssign b).2] =
      b.dynarray.storage.toList := stores_moved b (d.moveAssign b).1 rfl
  have hy' : (Assoc.erase s.objects x).lookup y = some d :=
    (Assoc.lookup_erase_of_ne hne).trans hy
  have hbefore : s.all.Perm ([d, b] ++
      (s.buffers ++ (Assoc.erase (Assoc.erase s.objects x) y).map Prod.snd)) := by
    refine (all_perm_of_lookup hx).trans ?_
    refine ((((Assoc.perm_of_lookup hy').map Prod.snd).append_left s.buffers).cons b).trans ?_
    exact (List.perm_middle.cons b).trans (List.Perm.swap d b _)
  have herase : Assoc.erase (s.put x (d.moveAssign b).2).objects y =
      (x, (d.moveAssign b).2) :: Assoc.erase (Assoc.erase s.objects x) y :=
    List.eraseP_cons_of_neg (by simpa using hne.symm)
  have hdisj : ∀ id ∈ d.dynarray.storage, id ∉ b.dynarray.storage := by
    intro id hd hb
    have hnodup := (stores_perm hbefore).nodup_iff.mp h.nodup
    rw [List.cons_append, stores_cons] at hnodup
    refine List.disjoint_of_nodup_append hnodup (Option.mem_toList.mpr hd) ?_
    rw [List.cons_append, stores_cons]
    exact List.mem_append_left _ (Option.mem_toList.mpr hb)
  refine ⟨[d, b], [(d.moveAssign b).1, (d.moveAssign b).2],
    ⟨rfl, Nat.le_refl _, fun _ h => h, fun _ h => .inl h, ⟨_, hbefore, ?_⟩,
      fun id hid => ?_, ?_, fun c hc => ?_, fun _ h => .inl h, fun e he => ?_⟩, ?_⟩
  · have hobjects : ((s.put x (d.moveAssign b).2).put y (d.moveAssign b).1).objects =
        (y, (d.moveAssign b).1) :: (x, (d.moveAssign b).2) ::
          Assoc.erase (Assoc.erase s.objects x) y := congrArg _ herase
    rw [all, hobjects]
    exact List.perm_middle.trans (List.perm_middle.cons _)
  · refine .inl ?_
    rw [stores_cons]
    exact List.mem_append_right _
      (mem_stores_singleton.mpr (Option.mem_toList.mp (hst ▸ hid)))
  · have hone := nodup_stores_singleton b
    rw [stores_cons, stores_nil, List.append_nil] at hone
    exact hst.symm ▸ hone
  · rcases List.mem_cons.mp hc with rfl | hc
    · exact ⟨hfits.maxSize, hfits.lt, hfits.capacity⟩
    · obtain rfl := List.mem_singleton.mp hc
      exact ⟨hfits.maxSize, hfits.lt, nofun⟩
  · rcases List.mem_cons.mp he with rfl | he
    · exact .inr hhome
    · rcases List.mem_cons.mp (herase ▸ he) with rfl | he
      · exact .inr hhome
      · exact .inl (List.mem_of_mem_eraseP (List.mem_of_mem_eraseP he))
  · have hnew : ∀ id, id ∈ Buffers.stores [(d.moveAssign b).1, (d.moveAssign b).2] ↔
        id ∈ b.dynarray.storage := fun id => by rw [hst, Option.mem_toList]; rfl
    have hold : ∀ id, id ∈ Buffers.stores [d, b] ↔
        id ∈ d.dynarray.storage ∨ id ∈ b.dynarray.storage := fun id => by
      rw [stores_cons, List.mem_append, mem_stores_singleton, Option.mem_toList]
      rfl
    simp only [hnew, hold]
    constructor
    · rintro hc id hk (hd | hb)
      · exact absurd hk (hc id hd)
      · exact hb
    · intro hc id hd hk
      exact hdisj id hd (hc id hk (.inl hd))

/-- `s₁` is `s` without the buffers `old`, of which `b` has the storage. -/
structure Loose (s s₁ : State) (old : List Buffer) (b : Buffer) : Prop where
  bufferSize : s₁.bufferSize = s.bufferSize
  fresh : s.fresh ≤ s₁.fresh
  known : s.known ⊆ s₁.known
  known_new : ∀ id ∈ s₁.known, id ∈ s.known ∨ id ∈ b.dynarray.storage
  perm : s.all.Perm (old ++ s₁.all)
  stores : ∀ id ∈ b.dynarray.storage, id ∈ Buffers.stores old ∨ s.fresh ≤ id ∧ id < s₁.fresh
  fits : Fits s₁.bufferSize s₁.known b
  pooled : ∀ c ∈ s₁.buffers, c ∈ s.buffers
  home : ∀ e ∈ s₁.objects, e ∈ s.objects

/-- The buffer returns to its pool, with its storage if that is the pool's. -/
theorem Loose.giveBack {old : List Buffer} (hl : Loose s s₁ old b) (hm : b.moved = false)
    (hh : b.homeVector = true) :
    ∃ b', Moves s (s₁.giveBack b) old [b'] ∧
      ∀ id ∈ b.dynarray.storage, id ∈ s₁.known → id ∈ b'.dynarray.storage := by
  obtain ⟨b', hret, hdyn, hpooled⟩ := Buffer.returned_of_home s₁.fresh hm hh hl.fits
  have hgive : s₁.giveBack b = { s₁ with
      buffers := b' :: s₁.buffers
      fresh := s₁.fresh + 1
      known := b'.dynarray.storage.toList ++ s₁.known } := by rw [State.giveBack, hret]
  have hkeep : ∀ id ∈ b.dynarray.storage, id ∈ s₁.known → id ∈ b'.dynarray.storage := by
    intro id hid hk
    rw [hdyn, DynArray.resize_of_le (hl.fits.capacity id hid hk)]
    exact hid
  have hst : ∀ id ∈ b'.dynarray.storage, id ∈ b.dynarray.storage ∨ id = s₁.fresh := by
    intro id hid
    rcases b.dynarray.resize_cases s₁.fresh s₁.bufferSize with ⟨hsame, -⟩ | ⟨-, hnew, -⟩
    · rw [hdyn, hsame] at hid
      exact .inl hid
    · rw [hdyn, hnew] at hid
      exact .inr (Option.some.inj hid).symm
  refine ⟨b', ?_, hkeep⟩
  rw [hgive]
  refine ⟨hl.bufferSize, Nat.le_succ_of_le hl.fresh, fun id hid => ?_, fun id hid => ?_,
    ⟨s₁.all, hl.perm, .refl _⟩, fun id hid => ?_, nodup_stores_singleton b', fun c hc => ?_,
    fun c hc => ?_, fun e he => .inl (hl.home e he)⟩
  · exact List.mem_append_right _ (hl.known hid)
  · rw [mem_stores_singleton]
    rcases List.mem_append.mp hid with hid | hid
    · exact .inr (Option.mem_toList.mp hid)
    · exact (hl.known_new id hid).imp_right fun hb => hkeep id hb hid
  · rcases hst id (mem_stores_singleton.mp hid) with hb | rfl
    · exact (hl.stores id hb).imp_right fun hlt => ⟨hlt.1, Nat.lt_succ_of_lt hlt.2⟩
    · exact .inr ⟨hl.fresh, Nat.lt_succ_self _⟩
  · exact List.mem_singleton.mp hc ▸ hpooled.fits
  · rcases List.mem_cons.mp hc with rfl | hc
    · exact .inr hpooled
    · exact .inl (hl.pooled c hc)

/-- The buffer is handed out, its size changed in place. -/
theorem Loose.hand {old : List Buffer} (hl : Loose s s₁ old b) {b' : Buffer}
    (hst : b'.dynarray.storage = b.dynarray.storage)
    (hcap : b'.dynarray.capacity = b.dynarray.capacity) (hmax : b'.maxSize = b.maxSize)
    (hh : b'.homeVector = true) :
    Moves s { s₁ with
      objects := (x, b') :: s₁.objects
      fresh := s₁.fresh + 1 } old [b'] where
  bufferSize := hl.bufferSize
  fresh := Nat.le_succ_of_le hl.fresh
  known := hl.known
  known_new id hid := by
    rw [mem_stores_singleton, hst]
    exact hl.known_new id hid
  perm := ⟨s₁.all, hl.perm, List.perm_middle⟩
  stores id hid := by
    rw [mem_stores_singleton, hst] at hid
    exact (hl.stores id hid).imp_right fun hlt => ⟨hlt.1, Nat.lt_succ_of_lt hlt.2⟩
  nodup := nodup_stores_singleton b'
  fits c hc := by
    obtain rfl := List.mem_singleton.mp hc
    refine ⟨hmax.trans hl.fits.maxSize, hl.fits.lt, ?_⟩
    rw [hst, hcap]
    exact hl.fits.capacity
  pooled c hc := .inl (hl.pooled c hc)
  home e he := by
    rcases List.mem_cons.mp he with rfl | he
    · exact .inr hh
    · exact .inl (hl.home e he)

/-- `~Buffer`: the storage returns to the pool, unless it was moved. -/
theorem steps_destroy (h : Sound s) (hx : s.objects.lookup x = some b) :
    Steps s ({ s with objects := Assoc.erase s.objects x }.giveBack b)
      (b.moved = true → ∀ id ∈ b.dynarray.storage, id ∉ s.known) := by
  have hperm := all_perm_of_lookup hx
  have hfits := fits_of_lookup h hx
  have hhome := home_of_lookup h hx
  cases hm : b.moved with
  | true =>
      have hgive : ({ s with objects := Assoc.erase s.objects x } : State).giveBack b =
          { s with objects := Assoc.erase s.objects x } := by
        rw [State.giveBack, Buffer.returned_of_moved hm]
      rw [hgive]
      refine ⟨[b], [], ⟨rfl, Nat.le_refl _, fun _ h => h, fun _ h => .inl h, ⟨_, hperm, .refl _⟩,
        nofun, .nil, nofun, fun _ h => .inl h, fun e he => .inl (List.mem_of_mem_eraseP he)⟩, ?_⟩
      simp only [mem_stores_singleton, stores_nil, List.not_mem_nil, forall_const, imp_false]
      exact ⟨fun hc id hk hid => hc id hid hk, fun hc id hid hk => hc id hk hid⟩
  | false =>
      have hl : Loose s { s with objects := Assoc.erase s.objects x } [b] b :=
        ⟨rfl, Nat.le_refl _, fun _ h => h, fun _ h => .inl h, hperm,
          fun id hid => .inl (mem_stores_singleton.mpr hid), hfits, fun _ h => h, fun e he => List.mem_of_mem_eraseP he⟩
      obtain ⟨b', hmoves, hkeep⟩ := hl.giveBack hm hhome
      refine ⟨[b], [b'], hmoves, iff_of_true nofun fun id hk hid => ?_⟩
      exact mem_stores_singleton.mpr (hkeep id (mem_stores_singleton.mp hid) hk)

/-- A buffer just constructed. -/
theorem loose_newBuffer (hn : s.newBuffer = .ok (b, s₁)) :
    Pooled s₁.bufferSize s₁.known b ∧ Loose s s₁ [] b := by
  obtain ⟨b₀, hnew, he⟩ := map_eq_ok.mp hn
  cases he
  obtain ⟨hlt, rfl⟩ := Buffer.new_eq_ok.mp hnew
  have hpooled : Pooled s.bufferSize (s.fresh :: s.known)
      { maxSize := s.bufferSize, dynarray := .new s.fresh s.bufferSize (s.memory s.fresh) } :=
    ⟨rfl, hlt, Nat.le_refl _, rfl, rfl, fun id hid => by cases hid; exact List.mem_cons_self⟩
  refine ⟨hpooled, rfl, Nat.le_succ _, fun _ h => List.mem_cons_of_mem _ h, fun id hid => ?_,
    .refl _, fun id hid => ?_, hpooled.fits, fun _ h => h, fun _ h => h⟩
  · rcases List.mem_cons.mp hid with rfl | hid
    · exact .inr rfl
    · exact .inl hid
  · cases hid
    exact .inr ⟨Nat.le_refl _, Nat.lt_succ_self _⟩

/-- The back of the vector, a buffer of the pool or a new one. -/
theorem loose_popBack (h : Sound s) (hp : s.popBack = .ok (b, s₁)) :
    Pooled s₁.bufferSize s₁.known b ∧ ∃ old, Loose s s₁ old b ∧
      ∀ id ∈ Buffers.stores old, id ∈ b.dynarray.storage := by
  unfold popBack at hp
  split at hp
  · obtain ⟨hpooled, hl⟩ := loose_newBuffer hp
    exact ⟨hpooled, [], hl, nofun⟩
  · next b₀ buffers hb =>
      cases hp
      have hpooled := h.pooled b (hb ▸ List.mem_cons_self)
      refine ⟨hpooled, [b], ⟨rfl, Nat.le_refl _, fun _ h => h, fun _ h => .inl h, ?_,
        fun id hid => .inl (mem_stores_singleton.mpr hid), hpooled.fits,
        fun c hc => hb ▸ List.mem_cons_of_mem _ hc, fun _ h => h⟩,
        fun id hid => mem_stores_singleton.mp hid⟩
      rw [all, hb]
      exact .refl _

/-- `take`: the storage leaves the pool, or is fresh. -/
theorem steps_take (h : Sound s) (x : Nat) (size : Option Nat) :
    Steps s (s.take x size).1 True := by
  unfold take
  split
  · exact .refl s
  · next b s₁ hp =>
      obtain ⟨hpooled, old, hl, hold⟩ := loose_popBack h hp
      have hl' : Loose s s₁ old { b.moveConstruct.1 with homeVector := true } :=
        { hl with fits := ⟨hpooled.maxSize, hpooled.lt, hl.fits.capacity⟩ }
      simp only
      split
      · obtain ⟨b', hmoves, hkeep⟩ := hl'.giveBack rfl rfl
        refine ⟨old, [b'], hmoves, iff_of_true trivial fun id hk hid => ?_⟩
        exact mem_stores_singleton.mpr (hkeep id (hold id hid) (hl.known hk))
      · next b' hres =>
          have hsame : b'.dynarray.storage = b.dynarray.storage ∧
              b'.dynarray.capacity = b.dynarray.capacity ∧ b'.maxSize = b.maxSize ∧
              b'.homeVector = true := by
            cases size with
            | none =>
                cases hres
                exact ⟨rfl, rfl, rfl, rfl⟩
            | some n =>
                exact Buffer.resize_of_room hres (hpooled.maxSize.le.trans hpooled.capacity)
          refine ⟨old, [b'.moveConstruct.1],
            hl.hand hsame.1 hsame.2.1 hsame.2.2.1 hsame.2.2.2, iff_of_true trivial fun id _ hid => ?_⟩
          exact mem_stores_singleton.mpr (hsame.1.symm ▸ hold id hid)

/-- **What a command does**: the storages of the pool are kept exactly when it is careful. -/
theorem steps_exec (h : Sound s) {c : Cmd} (hs : s.exec c = some (s', e)) :
    Steps s s' (s.Careful c) := by
  cases c with
  | take x size =>
      simp only [exec] at hs
      split at hs
      · cases hs
      · obtain rfl : (s.take x size).1 = s' := congrArg Prod.fst (Option.some.inj hs)
        exact steps_take h x size
  | resize x size =>
      obtain ⟨b, hx, hs⟩ := Option.map_eq_some_iff.mp hs
      split at hs
      · next b' hb =>
          cases hs
          exact steps_resize h hx hb
      · cases hs
        exact .refl s
  | trimLeft x offset =>
      obtain ⟨b, hx, hs⟩ := Option.map_eq_some_iff.mp hs
      split at hs
      · next b' hb =>
          cases hs
          exact steps_trimLeft h hx hb
      · cases hs
        exact .refl s
  | moveConstruct y x =>
      simp only [exec] at hs
      split at hs
      · next b hy hx =>
          cases hs
          exact steps_moveConstruct h hx
      · cases hs
  | moveAssign y x =>
      simp only [exec] at hs
      split at hs
      · next d b hy hx =>
          have hcareful : s.Careful (.moveAssign y x) ↔ ∀ id ∈ d.dynarray.storage, id ∉ s.known :=
            ⟨fun hc => hc d hy, fun hc b' hb' => by rw [hy] at hb'; cases hb'; exact hc⟩
          rw [hcareful]
          split at hs
          · next hyx =>
              cases hs
              subst hyx
              rw [hy] at hx
              cases hx
              exact steps_selfAssign h hy
          · next hne =>
              cases hs
              exact steps_moveAssign h hne hy hx
      · cases hs
  | destroy x =>
      obtain ⟨b, hx, hs⟩ := Option.map_eq_some_iff.mp hs
      cases hs
      have hcareful : s.Careful (.destroy x) ↔
          (b.moved = true → ∀ id ∈ b.dynarray.storage, id ∉ s.known) :=
        ⟨fun hc => hc b hx, fun hc b' hb' => by rw [hx] at hb'; cases hb'; exact hc⟩
      rw [hcareful]
      exact steps_destroy h hx

/-! ### Runs -/

/-- A pool just constructed. -/
def Init (s : State) : Prop := ∃ bufferSize memory n, new bufferSize memory n = .ok s

/-- The step relation of the pool and its buffers. -/
def Step (s : State) (c : Cmd) (s' : State) : Prop := ∃ e, s.exec c = some (s', e)

theorem sound_new {bufferSize n : Nat} {memory : Nat → Nat → UInt8}
    (h : new bufferSize memory n = .ok s) : Sound s ∧ Kept s := by
  induction n generalizing s with
  | zero =>
      cases h
      exact ⟨⟨.nil, nofun, nofun, nofun, nofun, nofun⟩, nofun⟩
  | succ n ih =>
      obtain ⟨s₀, h₀, h⟩ := bind_eq_ok.mp h
      obtain ⟨⟨b, s₁⟩, hb, rfl⟩ := map_eq_ok.mp h
      obtain ⟨hs, hk⟩ := ih h₀
      obtain ⟨hpooled, hl⟩ := loose_newBuffer hb
      have hmoves : Moves s₀ { s₁ with buffers := b :: s₁.buffers } [] [b] :=
        { bufferSize := hl.bufferSize
          fresh := hl.fresh
          known := hl.known
          known_new := fun id hid => (hl.known_new id hid).imp_right mem_stores_singleton.mpr
          perm := ⟨s₁.all, hl.perm, .refl _⟩
          stores := fun id hid => hl.stores id (mem_stores_singleton.mp hid)
          nodup := nodup_stores_singleton b
          fits := fun c hc => List.mem_singleton.mp hc ▸ hpooled.fits
          pooled := fun c hc => by
            rcases List.mem_cons.mp hc with rfl | hc
            · exact .inr hpooled
            · exact .inl (hl.pooled c hc)
          home := fun e he => .inl (hl.home e he) }
      exact ⟨hs.moves hmoves, (hs.keeps_iff hk hmoves).mpr nofun⟩

/-- What holds after any commands. -/
theorem sound_of_reachable {good : State → Cmd → Prop} (h : Reachable Init Step good s) : Sound s := by
  refine Reachable.induct (P := Sound) ?_ ?_ h
  · rintro s ⟨bufferSize, memory, n, hn⟩
    exact (sound_new hn).1
  · rintro s c s' - hs - ⟨e, he⟩
    obtain ⟨old, new, hm, -⟩ := steps_exec hs he
    exact hs.moves hm

/-- **A step conserves the storages exactly when it is careful.** -/
theorem careful_iff (h : Sound s) (hk : Kept s) {c : Cmd} (hs : Step s c s') :
    Conserved s' ↔ s.Careful c := by
  obtain ⟨e, he⟩ := hs
  obtain ⟨old, new, hm, hc⟩ := steps_exec h he
  rw [(h.moves hm).conserved_iff, h.keeps_iff hk hm, hc]

/-- In every run whose steps are careful. -/
theorem kept_of_reachable (h : Reachable Init Step Careful s) : Kept s := by
  refine Reachable.induct (P := Kept) ?_ ?_ h
  · rintro s ⟨bufferSize, memory, n, hn⟩
    exact (sound_new hn).2
  · rintro s c s' hr hk hc hs
    have hsound' := sound_of_reachable (.step hr hc hs)
    exact hsound'.conserved_iff.mp ((careful_iff (sound_of_reachable hr) hk hs).mpr hc)

end State

/-- **Conservation of the storages.**  As long as every step is careful every storage of the pool
has one owner, and the first step that is not loses one. -/
theorem conserves_storages {s : State} (h : Reachable State.Init State.Step State.Careful s) :
    s.Conserved ∧ ∀ c s', State.Step s c s' → (s'.Conserved ↔ s.Careful c) := by
  have hsound := State.sound_of_reachable h
  have hkept := State.kept_of_reachable h
  exact ⟨hsound.conserved_iff.mpr hkept, fun c s' hs => State.careful_iff hsound hkept hs⟩

/-! ### Lost storages -/

namespace Example

/-- A pool of two buffers of eight bytes. -/
def pool : State :=
  ((State.new 8 (fun _ _ => 0) 2).toOption).getD { bufferSize := 8, memory := fun _ _ => 0 }

theorem init_pool : State.Init pool := ⟨8, fun _ _ => 0, 2, rfl⟩

/-- The state after a command that is possible. -/
def go (s : State) (c : Cmd) : State := ((s.exec c).map Prod.fst).getD s

/-- A command that is executed is a step. -/
theorem reachable_go {good : State → Cmd → Prop} {s : State} {c : Cmd}
    (h : Reachable State.Init State.Step good s) (hg : good s c)
    (hs : (s.exec c).isSome = true) : Reachable State.Init State.Step good (go s c) := by
  obtain ⟨⟨s', e⟩, he⟩ := Option.isSome_iff_exists.mp hs
  refine .step h hg ⟨e, ?_⟩
  rw [go, he]
  rfl

/-- Two buffers are taken, and one is assigned over the other. -/
def assigned : State := go (go (go pool (.take 0 none)) (.take 1 none)) (.moveAssign 1 0)

/-- A buffer is moved from, assigned to again, and destroyed. -/
def revived : State :=
  go (go (go (go (go pool (.take 0 none)) (.moveConstruct 1 0)) (.moveAssign 0 1)) (.destroy 0))
    (.destroy 1)

theorem reachable_assigned : Reachable State.Init State.Step Always assigned :=
  reachable_go (reachable_go (reachable_go (.init init_pool) trivial (by decide +kernel)) trivial
    (by decide +kernel)) trivial (by decide +kernel)

theorem reachable_revived : Reachable State.Init State.Step Always revived :=
  reachable_go (reachable_go (reachable_go (reachable_go (reachable_go (.init init_pool) trivial
    (by decide +kernel)) trivial (by decide +kernel)) trivial (by decide +kernel)) trivial
    (by decide +kernel)) trivial (by decide +kernel)

end Example

/-- A buffer of four bytes is taken, and moved. -/
theorem conserves_moved :
    (Example.go (Example.go Example.pool (.take 0 (some 4))) (.moveConstruct 1 0)).Conserved := by
  refine (conserves_storages (Example.reachable_go (Example.reachable_go
    (.init Example.init_pool) ?_ ?_) ?_ ?_)).1
  · trivial
  · decide +kernel
  · trivial
  · decide +kernel

/-- Storages that are neither in a buffer nor back in the pool, at the end of both runs. -/
theorem storages_lost :
    (Reachable State.Init State.Step Always Example.assigned ∧ ¬ Example.assigned.Conserved) ∧
      Reachable State.Init State.Step Always Example.revived ∧ Example.revived.objects = [] ∧
        ¬ Example.revived.Conserved := by
  refine ⟨⟨Example.reachable_assigned, fun h => ?_⟩, Example.reachable_revived, rfl, fun h => ?_⟩
  · exact absurd (h.owned 0 (by decide +kernel)) (by decide +kernel)
  · exact absurd (h.owned 1 (by decide +kernel)) (by decide +kernel)

end Ubft.Buffers

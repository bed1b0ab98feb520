import Ubft.Rpc.Handshake
import Ubft.Support.OrdMap
import Ubft.Support.Runs

/-!
# Rpc — connections

`rpc/internal/connection.hpp`'s `Manager`, as `UniversalConnectionRpcHandler` drives it with what
clients send and with their disconnections.  The memory of a connection is one of the regions that
were allocated for `max_connections` of them; here they are numbered.  What is written to the
clients, and the queue pairs, are left out: `connected` says whether these could be connected to
those of a client, and the exception that is thrown when they could not ends the thread of the event
loop.

A region is taken before it is known whether its connection can be inserted, and a disconnection
creates the entry that it misses.  As long as neither happens (`Sound`), every region is free or
owned by one connection (`memory_of_reachable`).
-/

namespace Ubft.Rpc.Connections

/-- `data` is its `memory_region`, and `active` says which flag is shared with its copies. -/
structure Connection where
  active : Nat
  data : Option Nat
  deriving DecidableEq

/-- What a connection manager or handler throws. -/
inductive Error where
  /-- "Failed to bring conn QP to RTR: ", or to RTS. -/
  | connect
  /-- Nothing is thrown: the data of a connection is accessed, and there is none. -/
  | missingData
  deriving DecidableEq, Repr

/-! ### The manager -/

/-- `exported` is what `DynamicConnections` has in use. -/
structure Manager where
  maxConnections : Nat
  availableMemory : List Nat := List.range maxConnections
  conns : OrdMap Nat Connection := .empty
  flags : Nat → Bool := fun _ => true
  nextFlag : Nat := 0
  exported : List (Nat × Connection) := []

namespace Manager

/-- `dc.alterConnections`, with the connections that were in use before. -/
def alterConnections (m : Manager) : Manager × List (Nat × Connection) :=
  ({ m with exported := m.conns.entries }, m.exported)

/-- `make_shared<bool>(true)`. -/
def newFlag (m : Manager) : Manager × Nat :=
  ({ m with flags := Function.update m.flags m.nextFlag true, nextFlag := m.nextFlag + 1 },
    m.nextFlag)

/-- `unordered_map::insert`. -/
def tryInsert (m : Manager) (procId : Nat) (c : Connection) : Manager :=
  if (m.conns.find? procId).isSome then m else { m with conns := m.conns.insert procId c }

/-- A memory region is taken from the pool and the connection established. -/
def handleStep1 (m : Manager) (procId : Nat) (connected : Bool) :
    Except Error (Manager × Bool) :=
  match m.availableMemory.getLast? with
  | none => .ok (m, false)
  | some region =>
    if connected then
      let (m, active) := { m with availableMemory := m.availableMemory.dropLast }.newFlag
      .ok (m.tryInsert procId ⟨active, some region⟩, true)
    else .error .connect

/-- The new connection is handed over to the poller. -/
def handleStep2 (m : Manager) : Manager × Bool := (m.alterConnections.1, true)

/-- The memory region goes back to the pool. -/
def remove (m : Manager) (procId : Nat) : Except Error Manager :=
  match m.conns.find? procId with
  | none => .ok m
  | some c =>
    match c.data with
    | none => .error .missingData
    | some region => .ok { m with
        availableMemory := m.availableMemory ++ [region]
        conns := m.conns.erase procId }

/-- The connections whose flag was lowered. -/
def collectInactive (m : Manager) : Manager × List Nat :=
  let (m, inactive) := m.alterConnections
  (m, (inactive.filter fun e => !m.flags e.2.active).map (·.1))

/-- `conns[proc_id]`, which inserts a connection without data when there is none. -/
def entry (m : Manager) (procId : Nat) : Manager × Connection :=
  match m.conns.find? procId with
  | some c => (m, c)
  | none =>
    let (m, active) := m.newFlag
    ({ m with conns := m.conns.insert procId ⟨active, none⟩ }, ⟨active, none⟩)

/-- The flag of the connection is lowered; `operator[]` makes a missing entry. -/
def markInactive (m : Manager) (procId : Nat) : Manager :=
  let (m, c) := m.entry procId
  ({ m with flags := Function.update m.flags c.active false }).alterConnections.1

/-- The regions of the connections. -/
def owned (m : Manager) : List Nat := m.conns.entries.filterMap (·.2.data)

/-- **Conservation.**  Every region is free or owned by one connection, and every connection has
data. -/
structure Conserved (m : Manager) : Prop where
  regions : (m.availableMemory ++ m.owned).Perm (List.range m.maxConnections)
  data : ∀ procId c, m.conns.find? procId = some c → c.data.isSome

end Manager

/-! ### The handler -/

/-- `UniversalConnectionRpcHandler::Connection`. -/
structure Session where
  parser : ConnectionRpcHandlerParser := {}
  procId : Option Nat := none

/-- `closing` are the clients that were told to disconnect. -/
structure Handler where
  manager : Manager
  sessions : Nat → Option Session := fun _ => none
  sessionsInv : Nat → Option Nat := fun _ => none
  closing : List Nat := []

namespace Handler

open ConnectionRpcHandlerParser (Report)

/-- `sessions[client]`, which makes a missing session. -/
def session (h : Handler) (client : Nat) : Session := (h.sessions client).getD {}

/-- A `ProcId` has four bytes. -/
def parsed (h : Handler) (client : Nat) (buf : Bytes) :
    List Report × ConnectionRpcHandlerParser :=
  (ConnectionRpcHandlerParser.incremental 4).drain ((h.session client).parser.feed buf)

/-- The session and the client are found by the process that was told. -/
def setProcId (h : Handler) (client procId : Nat) : Handler := { h with
  sessions := Function.update h.sessions client
    (some { h.session client with procId := some procId })
  sessionsInv := Function.update h.sessionsInv procId (some client) }

/-- The body of the loop of `feed`. -/
def handleReport (client : Nat) (connected : Bool) (h : Handler) (r : Report) :
    Except Error Handler :=
  match r.step with
  | .step1 => do
    let h := h.setProcId client r.clientId
    let (manager, _) ← h.manager.handleStep1 r.clientId connected
    return { h with manager }
  | .step2 => .ok { h with manager := h.manager.handleStep2.1 }

/-- The inactive connections are told to disconnect, and the client gets a session. -/
def prepare (h : Handler) (client : Nat) (buf : Bytes) : Handler :=
  let (manager, inactive) := h.manager.collectInactive
  { h with
    manager
    closing := h.closing ++ inactive.filterMap h.sessionsInv
    sessions := Function.update h.sessions client
      (some { h.session client with parser := (h.parsed client buf).2 }) }

/-- The steps are parsed one at a time, and handling them leaves the parser. -/
def feed (h : Handler) (client : Nat) (buf : Bytes) (connected : Bool) : Except Error Handler :=
  (h.parsed client buf).1.foldlM (handleReport client connected) (h.prepare client buf)

/-- The connection of a process is marked and removed. -/
def forget (h : Handler) (procId : Nat) : Except Error Handler := do
  let manager ← (h.manager.markInactive procId).remove procId
  return { h with manager, sessionsInv := Function.update h.sessionsInv procId none }

/-- A client that goes away takes its connection with it, if it told a process. -/
def disconnected (h : Handler) (client : Nat) : Except Error Handler :=
  match h.sessions client with
  | none => .ok h
  | some session => do
    let h ← match session.procId with
      | none => .ok h
      | some procId => h.forget procId
    return { h with sessions := Function.update h.sessions client none }

/-! ### Runs -/

/-- What comes from a socket. -/
inductive Event where
  | feed (client : Nat) (buf : Bytes) (connected : Bool)
  | disconnected (client : Nat)

/-- A handler works through one event. -/
def next (h : Handler) : Event → Except Error Handler
  | .feed client buf connected => h.feed client buf connected
  | .disconnected client => h.disconnected client

/-- No connection, and memory for `maxConnections` of them. -/
def Init (h : Handler) : Prop := ∃ n, h = { manager := { maxConnections := n } }

/-- An event that throws nothing. -/
def Step (h : Handler) (e : Event) (h' : Handler) : Prop := h.next e = .ok h'

/-- A process whose request is given memory is not connected yet, and a process that disconnects
after its request is connected. -/
def Sound (h : Handler) : Event → Prop
  | .feed client buf _ => ∀ r ∈ (h.parsed client buf).1, r.step = .step1 →
      h.manager.availableMemory = [] ∨ h.manager.conns.find? r.clientId = none
  | .disconnected client => ∀ session ∈ h.sessions client, ∀ procId ∈ session.procId,
      (h.manager.conns.find? procId).isSome

instance (h : Handler) : DecidablePred h.Sound
  | .feed _ _ _ => inferInstanceAs (Decidable (∀ r ∈ _, _ → _ ∨ _))
  | .disconnected _ => inferInstanceAs (Decidable (∀ session ∈ _, ∀ procId ∈ _, _))

end Handler

/-! ### The memory -/

namespace Manager

variable {m m' : Manager} {procId : Nat} {b connected : Bool}

/-- The same memory, with the same owners. -/
structure SameMemory (m m' : Manager) : Prop where
  maxConnections : m'.maxConnections = m.maxConnections
  availableMemory : m'.availableMemory = m.availableMemory
  conns : m'.conns = m.conns

/-- The same regions, shared out alike. -/
theorem SameMemory.conserved (h : SameMemory m m') (hc : m.Conserved) : m'.Conserved where
  regions := by
    rw [owned, h.maxConnections, h.availableMemory, h.conns]
    exact hc.regions
  data := by
    rw [h.conns]
    exact hc.data

theorem SameMemory.trans {m'' : Manager} (h : SameMemory m m') (h' : SameMemory m' m'') :
    SameMemory m m'' :=
  ⟨h'.maxConnections.trans h.maxConnections, h'.availableMemory.trans h.availableMemory,
    h'.conns.trans h.conns⟩

/-- The poller gets the connections, no region changes hands. -/
theorem sameMemory_alterConnections (m : Manager) : SameMemory m m.alterConnections.1 :=
  ⟨rfl, rfl, rfl⟩

/-- A region is available or a connection's. -/
theorem Conserved.length_eq (hc : m.Conserved) :
    m.availableMemory.length + m.owned.length = m.maxConnections := by
  rw [← List.length_append, hc.regions.length_eq, List.length_range]

theorem conserved_init (n : Nat) : Conserved { maxConnections := n } where
  regions := .of_eq (List.append_nil _)
  data := nofun

/-- **A connection request** is refused without memory; otherwise a region is taken, and it is lost
when the process is connected already. -/
theorem handleStep1_cases (h : m.handleStep1 procId connected = .ok (m', b)) :
    (m.availableMemory = [] ∧ m' = m) ∨
    ∃ region, m.availableMemory.getLast? = some region ∧
      m'.maxConnections = m.maxConnections ∧
      m'.availableMemory = m.availableMemory.dropLast ∧
      ((∃ c, m.conns.find? procId = some c ∧ m'.conns = m.conns) ∨
        ∃ active, m.conns.find? procId = none ∧
          m'.conns = m.conns.insert procId ⟨active, some region⟩) := by
  unfold handleStep1 at h
  split at h
  · next hnone =>
      cases h
      exact .inl ⟨List.getLast?_eq_none_iff.mp hnone, rfl⟩
  · next region hlast =>
      split at h
      · cases h
        refine .inr ⟨region, hlast, ?_⟩
        unfold tryInsert
        dsimp only
        cases hf : m.conns.find? procId with
        | some c => exact ⟨rfl, rfl, .inl ⟨c, rfl, rfl⟩⟩
        | none => exact ⟨rfl, rfl, .inr ⟨m.nextFlag, rfl, rfl⟩⟩
      · cases h

theorem handleStep1_eq_error {e : Error} (h : m.handleStep1 procId connected = .error e) :
    e = .connect := by
  unfold handleStep1 at h
  split at h
  · cases h
  · split at h
    · cases h
    · cases h
      rfl

/-- A process without a connection gets a region. -/
theorem Conserved.handleStep1 (hc : m.Conserved)
    (hs : m.availableMemory = [] ∨ m.conns.find? procId = none)
    (h : m.handleStep1 procId connected = .ok (m', b)) : m'.Conserved := by
  rcases handleStep1_cases h with ⟨-, rfl⟩ |
      ⟨region, hlast, hmax, havail, ⟨c, hf, -⟩ | ⟨active, hf, hconns⟩⟩
  · exact hc
  · rcases hs with hnil | hno
    · rw [hnil] at hlast
      cases hlast
    · exact nomatch hno.symm.trans hf
  · have hsplit := List.dropLast_append_getLast? region hlast
    have howned : m'.owned.Perm (region :: m.owned) := by
      rw [owned, hconns]
      exact (OrdMap.perm_insert hf _).filterMap _
    refine ⟨?_, fun p c hp => ?_⟩
    · rw [hmax, havail]
      refine ((howned.append_left _).trans ?_).trans hc.regions
      refine .of_eq ?_
      rw [List.append_cons, hsplit]
    · rw [hconns, OrdMap.find?_insert] at hp
      split at hp
      · cases hp
        rfl
      · exact hc.data p c hp

/-- The region of a request of a process that is connected is lost. -/
theorem Conserved.not_handleStep1 (hc : m.Conserved) (hsome : m.availableMemory ≠ [])
    (hf : (m.conns.find? procId).isSome) (h : m.handleStep1 procId connected = .ok (m', b)) :
    ¬m'.Conserved := by
  intro hc'
  rcases handleStep1_cases h with ⟨hnil, -⟩ |
      ⟨region, hlast, hmax, havail, ⟨c, -, hconns⟩ | ⟨active, hno, -⟩⟩
  · exact hsome hnil
  · have hlen := hc.length_eq
    have hlen' := hc'.length_eq
    have hpos := List.length_pos_iff.mpr hsome
    rw [owned, hmax, havail, hconns, List.length_dropLast] at hlen'
    rw [owned] at hlen
    omega
  · rw [hno] at hf
    cases hf

/-- `operator[]` on a connection that is there. -/
theorem entry_of_find? {c : Connection} (hf : m.conns.find? procId = some c) :
    m.entry procId = (m, c) := by
  unfold entry
  rw [hf]

theorem sameMemory_markInactive {c : Connection} (hf : m.conns.find? procId = some c) :
    SameMemory m (m.markInactive procId) := by
  unfold markInactive
  rw [entry_of_find? hf]
  exact ⟨rfl, rfl, rfl⟩

/-- A connection that was not there is inserted without data. -/
theorem find?_markInactive (hf : m.conns.find? procId = none) :
    ∃ active, (m.markInactive procId).conns.find? procId = some ⟨active, none⟩ := by
  unfold markInactive entry
  rw [hf]
  exact ⟨_, OrdMap.find?_insert_self ..⟩

/-- The region of a connection returns. -/
theorem Conserved.remove {c : Connection} (hc : m.Conserved)
    (hf : m.conns.find? procId = some c) :
    ∃ m', m.remove procId = .ok m' ∧ m'.Conserved := by
  obtain ⟨region, hregion⟩ := Option.isSome_iff_exists.mp (hc.data procId c hf)
  have howned : m.owned.Perm (region :: (m.conns.erase procId).entries.filterMap (·.2.data)) := by
    have hperm := (OrdMap.perm_erase hf).filterMap (·.2.data)
    rw [List.filterMap_cons, hregion] at hperm
    exact hperm
  refine ⟨{ m with
    availableMemory := m.availableMemory ++ [region]
    conns := m.conns.erase procId }, ?_, ?_, fun p c hp => ?_⟩
  · unfold Manager.remove
    rw [hf]
    dsimp only
    rw [hregion]
  · refine .trans ?_ hc.regions
    refine .trans (.of_eq ?_) (howned.symm.append_left _)
    exact (List.append_cons ..).symm
  · rw [OrdMap.find?_erase] at hp
    split at hp
    · cases hp
    · exact hc.data p c hp

/-- A connection without data has no region to return. -/
theorem remove_of_data_none {active : Nat} (hf : m.conns.find? procId = some ⟨active, none⟩) :
    m.remove procId = .error .missingData := by
  unfold remove
  rw [hf]

end Manager

/-! ### What the handler does -/

namespace Handler

open ConnectionRpcHandlerParser (Report)
open Manager (SameMemory)

variable {h h' : Handler} {client : Nat} {buf : Bytes} {connected : Bool} {rs : List Report}
  {r : Report} {e : Event}

/-- Before its bytes are handled, no region changes hands. -/
theorem sameMemory_prepare (h : Handler) (client : Nat) (buf : Bytes) :
    SameMemory h.manager (h.prepare client buf).manager :=
  ⟨rfl, rfl, rfl⟩

/-- After its request, a client can only say that it is done. -/
theorem foldlM_step2 (hrs : ∀ r ∈ rs, r.step = .step2) :
    ∃ h', rs.foldlM (handleReport client connected) h = .ok h' ∧
      SameMemory h.manager h'.manager := by
  induction rs generalizing h with
  | nil => exact ⟨h, rfl, ⟨rfl, rfl, rfl⟩⟩
  | cons r rs ih =>
      obtain ⟨hr, hrs⟩ := List.forall_mem_cons.mp hrs
      have hstep : handleReport client connected h r =
          .ok { h with manager := h.manager.handleStep2.1 } := by
        unfold handleReport
        rw [hr]
      obtain ⟨h', hrun, hsame⟩ := ih (h := { h with manager := h.manager.handleStep2.1 }) hrs
      refine ⟨h', (List.foldlM_cons ..).trans (bind_eq_ok.mpr ⟨_, hstep, hrun⟩), ?_⟩
      exact (Manager.sameMemory_alterConnections h.manager).trans hsame

/-- **What is fed** completes a connection request, or the memory stays. -/
theorem feed_cases (h : Handler) (client : Nat) (buf : Bytes) (connected : Bool) :
    ((∀ r ∈ (h.parsed client buf).1, r.step = .step2) ∧
      ∃ h', h.feed client buf connected = .ok h' ∧ SameMemory h.manager h'.manager) ∨
    ∃ r ∈ (h.parsed client buf).1, r.step = .step1 ∧
      (∀ r' ∈ (h.parsed client buf).1, r'.step = .step1 → r' = r) ∧
      ((∃ e, h.manager.alterConnections.1.handleStep1 r.clientId connected = .error e ∧
          h.feed client buf connected = .error e) ∨
        ∃ m b h', h.manager.alterConnections.1.handleStep1 r.clientId connected = .ok (m, b) ∧
          h.feed client buf connected = .ok h' ∧ SameMemory m h'.manager) := by
  have hprepare := sameMemory_prepare h client buf
  have htail : ∀ r ∈ (h.parsed client buf).1.tail, r.step = .step2 :=
    ConnectionRpcHandlerParser.step2_of_mem_tail _
  unfold feed
  cases hl : (h.parsed client buf).1 with
  | nil => exact .inl ⟨nofun, _, rfl, hprepare⟩
  | cons r rest =>
      rw [hl] at htail
      cases hr : r.step with
      | step2 =>
          have hall : ∀ r' ∈ r :: rest, r'.step = .step2 := List.forall_mem_cons.mpr ⟨hr, htail⟩
          obtain ⟨h', hrun, hsame⟩ := foldlM_step2 (h := h.prepare client buf) hall
          exact .inl ⟨hall, h', hrun, hprepare.trans hsame⟩
      | step1 =>
          refine .inr ⟨r, List.mem_cons_self, hr, fun r' hr' hstep => ?_, ?_⟩
          · rcases List.mem_cons.mp hr' with rfl | hr'
            · rfl
            · exact nomatch hstep.symm.trans (htail r' hr')
          · have hfirst : handleReport client connected (h.prepare client buf) r = (do
                let (manager, _) ← h.manager.alterConnections.1.handleStep1 r.clientId connected
                return { (h.prepare client buf).setProcId client r.clientId with manager }) := by
              unfold handleReport
              rw [hr]
              rfl
            rw [List.foldlM_cons, hfirst]
            cases hm : h.manager.alterConnections.1.handleStep1 r.clientId connected with
            | error e => exact .inl ⟨e, rfl, rfl⟩
            | ok mb =>
                obtain ⟨h', hrun, hsame⟩ := foldlM_step2 (h := {
                  (h.prepare client buf).setProcId client r.clientId with manager := mb.1 }) htail
                exact .inr ⟨mb.1, mb.2, h', rfl, hrun, hsame⟩

/-- Feeding keeps the regions, when its steps are sound. -/
theorem Sound.feed (hs : h.Sound (.feed client buf connected)) (hc : h.manager.Conserved)
    (hf : h.feed client buf connected = .ok h') : h'.manager.Conserved := by
  rcases feed_cases h client buf connected with ⟨-, h'', hf', hsame⟩ |
      ⟨r, hr, hstep, -, ⟨e, -, hf'⟩ | ⟨m, b, h'', hm, hf', hsame⟩⟩
  · cases hf.symm.trans hf'
    exact hsame.conserved hc
  · cases hf.symm.trans hf'
  · cases hf.symm.trans hf'
    have hc' := (Manager.sameMemory_alterConnections h.manager).conserved hc
    exact hsame.conserved (hc'.handleStep1 (hs r hr hstep) hm)

theorem feed_ne_missingData : h.feed client buf connected ≠ .error .missingData := by
  intro hf
  rcases feed_cases h client buf connected with ⟨-, h'', hf', -⟩ |
      ⟨r, -, -, -, ⟨e, hm, hf'⟩ | ⟨m, b, h'', -, hf', -⟩⟩
  · cases hf.symm.trans hf'
  · cases hf.symm.trans hf'
    cases Manager.handleStep1_eq_error hm
  · cases hf.symm.trans hf'

/-- Otherwise a region is lost, or connecting failed. -/
theorem not_sound_feed (hs : ¬h.Sound (.feed client buf connected)) (hc : h.manager.Conserved) :
    h.feed client buf connected = .error .connect ∨
      ∃ h', h.feed client buf connected = .ok h' ∧ ¬h'.manager.Conserved := by
  obtain ⟨r, hr⟩ := not_forall.mp hs
  obtain ⟨hmem, hr⟩ := Classical.not_imp.mp hr
  obtain ⟨hstep, hr⟩ := Classical.not_imp.mp hr
  obtain ⟨hsome, hf⟩ := not_or.mp hr
  rcases feed_cases h client buf connected with ⟨hall, -⟩ |
      ⟨r', -, -, honly, ⟨e, hm, hf'⟩ | ⟨m, b, h'', hm, hf', hsame⟩⟩
  · exact nomatch hstep.symm.trans (hall r hmem)
  · rw [Manager.handleStep1_eq_error hm] at hf'
    exact .inl hf'
  · obtain rfl := honly r hmem hstep
    have hc' := (Manager.sameMemory_alterConnections h.manager).conserved hc
    have hlost := hc'.not_handleStep1 hsome (Option.isSome_iff_ne_none.mpr hf) hm
    have hback : SameMemory h''.manager m :=
      ⟨hsame.maxConnections.symm, hsame.availableMemory.symm, hsame.conns.symm⟩
    exact .inr ⟨h'', hf', fun hc'' => hlost (hback.conserved hc'')⟩

/-! ### Disconnections -/

/-- A process with a connection is forgotten. -/
theorem forget_of_isSome {procId : Nat} (hc : h.manager.Conserved)
    (hf : (h.manager.conns.find? procId).isSome) :
    ∃ h', h.forget procId = .ok h' ∧ h'.manager.Conserved := by
  obtain ⟨c, hf⟩ := Option.isSome_iff_exists.mp hf
  have hsame := Manager.sameMemory_markInactive hf
  have hf' : (h.manager.markInactive procId).conns.find? procId = some c := hsame.conns ▸ hf
  obtain ⟨m, hm, hc'⟩ := (hsame.conserved hc).remove hf'
  exact ⟨_, bind_eq_ok.mpr ⟨m, hm, rfl⟩, hc'⟩

/-- One without makes `markInactive` insert an entry without data. -/
theorem forget_of_none {procId : Nat} (hf : h.manager.conns.find? procId = none) :
    h.forget procId = .error .missingData := by
  obtain ⟨active, hentry⟩ := Manager.find?_markInactive hf
  exact bind_of_error (Manager.remove_of_data_none hentry)

/-- Disconnecting keeps the regions, when there was a connection. -/
theorem Sound.disconnected (hs : h.Sound (.disconnected client)) (hc : h.manager.Conserved) :
    ∃ h', h.disconnected client = .ok h' ∧ h'.manager.Conserved := by
  unfold Handler.disconnected
  cases hsession : h.sessions client with
  | none => exact ⟨h, rfl, hc⟩
  | some session =>
      dsimp only
      cases hid : session.procId with
      | none => exact ⟨_, rfl, hc⟩
      | some procId =>
          obtain ⟨h', hforget, hc'⟩ := forget_of_isSome hc (hs session hsession procId hid)
          exact ⟨_, bind_eq_ok.mpr ⟨h', hforget, rfl⟩, hc'⟩

/-- Otherwise there is none to return. -/
theorem not_sound_disconnected (hs : ¬h.Sound (.disconnected client)) :
    h.disconnected client = .error .missingData := by
  obtain ⟨session, hs⟩ := not_forall.mp hs
  obtain ⟨hsession, hs⟩ := Classical.not_imp.mp hs
  obtain ⟨procId, hs⟩ := not_forall.mp hs
  obtain ⟨hid, hs⟩ := Classical.not_imp.mp hs
  unfold Handler.disconnected
  rw [Option.mem_def.mp hsession]
  dsimp only
  rw [Option.mem_def.mp hid]
  exact bind_of_error (forget_of_none (Option.not_isSome_iff_eq_none.mp hs))

/-- A sound event keeps the regions. -/
theorem conserved_step (hs : h.Sound e) (hc : h.manager.Conserved) (hn : Step h e h') :
    h'.manager.Conserved := by
  cases e with
  | feed client buf connected => exact Sound.feed hs hc hn
  | disconnected client =>
      obtain ⟨h'', hd, hc'⟩ := Sound.disconnected hs hc
      cases hn.symm.trans hd
      exact hc'

/-- **The memory of connections**, in every run in which a process whose request is given memory is
not connected yet, and a process that disconnects after its request is connected: every region is
free or owned by one connection, every connection has data, and no data is missing.  At the first
step that is not sound data is missing, or a region is lost, unless the queue pairs could not be
connected. -/
theorem memory_of_reachable (hr : Reachable Init Step Sound h) :
    h.manager.Conserved ∧ (∀ e, h.Sound e → h.next e ≠ .error .missingData) ∧
      ∀ e, ¬h.Sound e → h.next e = .error .missingData ∨ h.next e = .error .connect ∨
        ∃ h', h.next e = .ok h' ∧ ¬h'.manager.Conserved := by
  have hc : h.manager.Conserved := by
    refine hr.induct (P := fun h => h.manager.Conserved) ?_ fun h e h' _ hc hs hn =>
      conserved_step hs hc hn
    rintro h ⟨n, rfl⟩
    exact Manager.conserved_init n
  refine ⟨hc, fun e hs => ?_, fun e hs => ?_⟩
  · cases e with
    | feed client buf connected => exact feed_ne_missingData
    | disconnected client =>
        obtain ⟨h', hd, -⟩ := Sound.disconnected hs hc
        intro he
        cases hd.symm.trans he
  · cases e with
    | feed client buf connected => exact .inr (not_sound_feed hs hc)
    | disconnected client => exact .inl (not_sound_disconnected hs)

end Handler

namespace Example

/-- "1:2:3:4:5". -/
def rc : Bytes := [0x31, 0x3A, 0x32, 0x3A, 0x33, 0x3A, 0x34, 0x3A, 0x35]

/-- What a client sends to connect three queue pairs. -/
def request (id : UInt8) : Bytes :=
  [id, 0, 0, 0, 29, 0, 0, 0] ++ rc ++ [0x20] ++ rc ++ [0x20] ++ rc

/-- There is memory for one connection, and two clients. -/
def refused : List Handler.Event :=
  [.feed 10 (request 1 ++ ConnectionRpcHandlerParser.done) true, .feed 11 (request 2) true]

end Example

/-- The process that was refused disconnects. -/
theorem not_conserved : ¬ ∀ (h : Handler) (e : Handler.Event),
    Reachable Handler.Init Handler.Step (Always (ι := Handler.Event)) h →
      h.manager.Conserved ∧ h.next e ≠ .error .missingData := by
  intro hall
  obtain ⟨h, hr, hp⟩ : ∃ h : Handler, Reachable Handler.Init Handler.Step (fun _ _ => True) h ∧
      decide (h.next (.disconnected 11) matches .error .missingData) = true :=
    exists_reachable { manager := { maxConnections := 1 } } ⟨1, rfl⟩ Example.refused
      (by decide +kernel)
  refine (hall h (.disconnected 11) hr.always).2 ?_
  split at hp
  · next he => exact he
  · cases hp

/-- The first of the two processes is connected, and disconnects. -/
theorem conserved_refused : ∃ h : Handler, Reachable Handler.Init Handler.Step Handler.Sound h ∧
    h.manager.availableMemory = [0] ∧ h.manager.Conserved := by
  obtain ⟨h, hr, hp⟩ : ∃ h : Handler, Reachable Handler.Init Handler.Step Handler.Sound h ∧
      decide (h.manager.availableMemory = [0]) = true :=
    exists_reachable { manager := { maxConnections := 1 } } ⟨1, rfl⟩
      (Example.refused ++ [.disconnected 10]) (by decide +kernel)
  exact ⟨h, hr, of_decide_eq_true hp, (Handler.memory_of_reachable hr).1⟩

end Ubft.Rpc.Connections

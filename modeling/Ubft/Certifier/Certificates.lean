import Ubft.Certifier.Check
import Ubft.Certifier.Shares

/-!
# Certifier — certificates

A certificate a replica builds and what another one makes of it.  Its bytes are read back
(`tryFrom_buffer`), and its shares are signatures of its message by distinct members of the group
(`built_of_poll`), so that `check` accepts it at every member, whatever that member keeps in its
own tail (`check_of_built`).
-/

namespace Ubft.Certifier

/-! ### The bytes of a certificate -/

namespace Certificate

/-- The fields fit their types, and the header counts the shares. -/
structure Encodable (c : Certificate Bytes) : Prop where
  identifier : c.identifier < 2 ^ 64
  index : c.index < 2 ^ 64
  nbShares : c.nbShares = c.shares.length
  emitters : ∀ sh ∈ c.shares, sh.emitter < 2 ^ 32
  signatures : ∀ sh ∈ c.shares, sh.signature.length = 64
  size : c.buffer.length < 2 ^ 64

/-- The bytes of a share. -/
def shareBytes (sh : CertificateShare) : Bytes := le 4 sh.emitter ++ sh.signature

/-- A share is an emitter and a signature. -/
theorem length_shareBytes {sh : CertificateShare} (h : sh.signature.length = 64) :
    (shareBytes sh).length = shareSize := by
  rw [shareBytes, List.length_append, length_le, h]
  rfl

theorem length_shares {shs : List CertificateShare} (h : ∀ sh ∈ shs, sh.signature.length = 64) :
    (shs.flatMap shareBytes).length = shs.length * shareSize := by
  induction shs with
  | nil => simp
  | cons sh shs ih =>
      rw [List.flatMap_cons, List.length_append, length_shareBytes (h sh List.mem_cons_self),
        ih fun x hx => h x (List.mem_cons_of_mem _ hx), List.length_cons, Nat.succ_mul]
      omega

/-- The header, the shares and the message. -/
theorem length_buffer {c : Certificate Bytes} (h : ∀ sh ∈ c.shares, sh.signature.length = 64) :
    c.buffer.length = headerSize + c.shares.length * shareSize + c.message.length := by
  have hs := length_shares h
  unfold shareBytes at hs
  simp only [buffer, List.length_append, length_le, hs, headerSize]

/-- The shares are read back, whatever follows. -/
theorem readShares_shares {shs : List CertificateShare} (rest : Bytes)
    (he : ∀ sh ∈ shs, sh.emitter < 2 ^ 32) (hs : ∀ sh ∈ shs, sh.signature.length = 64) :
    readShares (shs.flatMap shareBytes ++ rest) shs.length = shs := by
  induction shs with
  | nil => rfl
  | cons sh shs ih =>
      have hlen := length_shareBytes (hs sh List.mem_cons_self)
      have hsig := hs sh List.mem_cons_self
      rw [List.length_cons, readShares, List.flatMap_cons, List.append_assoc, if_neg]
      · congr 1
        · have hemitter : (shareBytes sh ++ (shs.flatMap shareBytes ++ rest)).take 4 =
              le 4 sh.emitter := by
            rw [shareBytes, List.append_assoc, List.take_append_of_le_length (by rw [length_le]),
              List.take_of_length_le (by rw [length_le])]
          have hsignature : ((shareBytes sh ++ (shs.flatMap shareBytes ++ rest)).drop 4).take 64 =
              sh.signature := by
            have hdrop : (le 4 sh.emitter ++ (sh.signature ++ (shs.flatMap shareBytes ++ rest))).drop
                4 = _ := List.drop_left' (length_le 4 sh.emitter)
            rw [shareBytes, List.append_assoc, hdrop, List.take_left' hsig]
          rw [hemitter, hsignature, ofLe_le_of_lt (he sh List.mem_cons_self)]
        · rw [List.drop_left' hlen]
          exact ih (fun x hx => he x (List.mem_cons_of_mem _ hx))
            fun x hx => hs x (List.mem_cons_of_mem _ hx)
      · rw [List.length_append, hlen]
        exact Nat.not_lt.mpr (Nat.le_add_right _ _)

/-- **Reading back.**  `tryFrom` makes of the bytes of a certificate the certificate. -/
theorem tryFrom_buffer {c : Certificate Bytes} (h : c.Encodable) :
    tryFrom c.buffer = some c := by
  have hlen := length_buffer h.signatures
  have hsize := h.size
  have hn : c.nbShares < 2 ^ 64 := by
    rw [h.nbShares]
    rw [hlen] at hsize
    simp only [shareSize] at hsize
    omega
  have hfields : c.buffer = le 8 c.identifier ++ (le 8 c.index ++ (le 8 c.nbShares ++
      (c.shares.flatMap shareBytes ++ c.message))) := by
    simp only [buffer, List.append_assoc]
    rfl
  have hid : c.buffer.take 8 = le 8 c.identifier := by
    rw [hfields, List.take_left' (length_le 8 _)]
  have hdrop₁ : c.buffer.drop 8 = le 8 c.index ++ (le 8 c.nbShares ++
      (c.shares.flatMap shareBytes ++ c.message)) := by
    rw [hfields, List.drop_left' (length_le 8 _)]
  have hdrop₂ : c.buffer.drop 16 = le 8 c.nbShares ++
      (c.shares.flatMap shareBytes ++ c.message) := by
    rw [show 16 = 8 + 8 from rfl, ← List.drop_drop, hdrop₁, List.drop_left' (length_le 8 _)]
  have hdrop₃ : c.buffer.drop headerSize = c.shares.flatMap shareBytes ++ c.message := by
    rw [show headerSize = 16 + 8 from rfl, ← List.drop_drop, hdrop₂,
      List.drop_left' (length_le 8 _)]
  have hcount : ofLe ((c.buffer.drop 16).take 8) = c.nbShares := by
    rw [hdrop₂, List.take_left' (length_le 8 _), ofLe_le_of_lt hn]
  have hbody : bufferSize 0 c.nbShares = headerSize + c.shares.length * shareSize := by
    rw [bufferSize, h.nbShares, Nat.add_zero, Nat.mod_eq_of_lt (by rw [hlen] at hsize; omega)]
  have hmessage : c.buffer.drop (bufferSize 0 c.nbShares) = c.message := by
    rw [hbody, ← List.drop_drop, hdrop₃, List.drop_left' (length_shares h.signatures)]
  rw [tryFrom, if_neg (by rw [hlen]; omega)]
  simp only [hcount]
  rw [if_neg (by rw [hbody, hlen]; omega), hid, hdrop₁, List.take_left' (length_le 8 _), hdrop₃,
    hmessage, ofLe_le_of_lt h.identifier, ofLe_le_of_lt h.index, h.nbShares,
    readShares_shares _ h.emitters h.signatures, ← h.nbShares]

end Certificate

/-! ### The certificates a replica builds -/

variable {M : Type} {g : Member M} {s : Certifier M} {c : Certificate M}

/-- A certificate of the message acknowledged, with a quorum of signatures of distinct members. -/
structure Built (g : Member M) (c : Certificate M) : Prop where
  identifier : c.identifier = g.identifier
  message : c.message = g.message c.index
  nbShares : c.nbShares = c.shares.length
  quorum : c.shares.length = (g.receivers.length + 1) / 2 + 1
  emitters : ∀ sh ∈ c.shares, sh.emitter ∈ g.receivers ++ [g.crypto.myId]
  distinct : (c.shares.map (·.emitter)).Nodup
  lengths : ∀ sh ∈ c.shares, sh.signature.length = 64
  verifies : ∀ sh ∈ c.shares, Verifies g.crypto (g.hash c.index) sh

/-- The members are numbered as the receivers are, the member itself last. -/
theorem idOf_eq (g : Member M) {r : Nat} (h : r ≤ g.receivers.length) :
    (g.receivers ++ [g.crypto.myId])[r]? = some (g.idOf r) := by
  rw [Member.idOf]
  rcases Nat.lt_or_ge r g.receivers.length with hlt | hge
  · rw [List.getElem?_append_left hlt, List.getD_eq_getElem?_getD, List.getElem?_eq_getElem hlt]
    rfl
  · have hr : r = g.receivers.length := le_antisymm h hge
    rw [hr, List.getElem?_append_right le_rfl]
    simp

/-- Ranks tell the members apart. -/
theorem idOf_inj (hn : (g.receivers ++ [g.crypto.myId]).Nodup) {r r' : Nat}
    (h : r ≤ g.receivers.length) (h' : r' ≤ g.receivers.length) (he : g.idOf r = g.idOf r') :
    r = r' := by
  have hlt : r < (g.receivers ++ [g.crypto.myId]).length := by
    rw [List.length_append]; exact Nat.lt_succ_of_le h
  have hget := (idOf_eq g h).trans ((congrArg some he).trans (idOf_eq g h').symm)
  exact (List.getElem?_inj hlt hn).mp hget

/-- **What is polled is built from signatures.** -/
theorem built_of_poll (hn : (g.receivers ++ [g.crypto.myId]).Nodup) (hs : g.Sound s)
    (h : (s.pollCertificate g.crypto).2 = some c) : Built g c := by
  obtain ⟨-, d, hd, hpoll, he⟩ := (pollCertificate_cases g.crypto s).2 c h
  have hsource : ∀ r, s.source g.crypto r = g.idOf r := fun r => by
    rw [source, hs.receivers]; rfl
  have hquorum : s.quorum ≤ d.receivedShares.entries.length := of_decide_eq_true hpoll
  have hsigned : ∀ e ∈ d.receivedShares.entries.take s.quorum, g.Signed e.1 c.index e.2 :=
    fun e hm => hs.received _ d hd e.1 e.2 (OrdMap.mem_entries.mp (List.mem_of_mem_take hm))
  have hshares : c.shares = (d.receivedShares.entries.take s.quorum).map fun e =>
      ⟨g.idOf e.1, e.2.signature⟩ := by
    rw [he, buildCertificate, Certificate.of]
    exact List.map_congr_left fun e _ => by rw [hsource]
  have hmem : ∀ sh ∈ c.shares, ∃ e ∈ d.receivedShares.entries.take s.quorum,
      g.Signed e.1 c.index e.2 ∧ sh = ⟨g.idOf e.1, e.2.signature⟩ := by
    intro sh hsh
    rw [hshares] at hsh
    obtain ⟨e, hm, rfl⟩ := List.mem_map.mp hsh
    exact ⟨e, hm, hsigned e hm, rfl⟩
  refine
    { identifier := by rw [he]; exact hs.identifier
      message := ?_
      nbShares := by rw [he]; rfl
      quorum := ?_
      emitters := fun sh hsh => ?_
      distinct := ?_
      lengths := fun sh hsh => ?_
      verifies := fun sh hsh => ?_ }
  · have hm := hs.messages _ d hd
    rw [← hm, he]
    rfl
  · rw [hshares, List.length_map, List.length_take, Nat.min_eq_left hquorum, quorum, hs.receivers]
  · obtain ⟨e, -, hsg, rfl⟩ := hmem sh hsh
    exact List.mem_of_getElem? (idOf_eq g hsg.rank)
  · rw [hshares, List.map_map]
    refine List.pairwise_map.mpr ?_
    refine (d.receivedShares.sorted.sublist (List.take_sublist _ _)).imp_of_mem ?_
    intro e e' hm hm' hlt hee
    -- one share for each rank
    exact hlt.ne (idOf_inj hn (hsigned e hm).rank (hsigned e' hm').rank hee)
  · obtain ⟨e, -, hsg, rfl⟩ := hmem sh hsh
    exact hsg.length
  · obtain ⟨e, -, hsg, rfl⟩ := hmem sh hsh
    exact hsg.verifies

/-! ### Checking them -/

/-- Two replicas that hash and verify in the same way, the second one knowing the keys of the
first. -/
structure SameScheme (cr cr' : Crypto M) : Prop where
  blake3 : cr'.blake3 = cr.blake3
  verifyWith : cr'.verifyWith = cr.verifyWith
  publicKeys : ∀ id ∈ cr.publicKeys, id ∈ cr'.publicKeys

/-- A signature verifies at every member alike. -/
theorem SameScheme.verifies {cr cr' : Crypto M} (h : SameScheme cr cr') {hash : Hash}
    {sh : CertificateShare} (hv : Verifies cr hash sh) : Verifies cr' hash sh := by
  unfold Verifies Crypto.verify at hv ⊢
  split at hv
  · next hm =>
      rw [if_pos (h.publicKeys _ hm), h.verifyWith]
      exact hv
  · cases hv

/-- **Every member is convinced**, whatever it keeps itself. -/
theorem check_of_built {cr' : Crypto M} {s' : Certifier M} (h : Built g c)
    (hcr : SameScheme g.crypto cr') (hi : s'.identifier = g.identifier)
    (hr : s'.receivers.length = g.receivers.length) : s'.check cr' c = .ok true := by
  have hwell : s'.WellShared c :=
    ⟨h.identifier.trans hi.symm, by rw [h.nbShares, h.quorum, quorum, hr], h.distinct⟩
  rw [check, checkWith, if_pos hwell, checkShares_eq_true_iff]
  intro sh hsh
  have hhash : hashOf cr' s' c.index c.message = g.hash c.index := by
    rw [hashOf, hcr.blake3, hi, h.message]
    rfl
  have hv : Verifies cr' (hashOf cr' s' c.index c.message) sh := by
    rw [hhash]
    exact hcr.verifies (h.verifies sh hsh)
  rw [accepted, decide_eq_true hv, Bool.or_true]

/-- A built certificate fits its fields. -/
theorem encodable_of_built {g : Member Bytes} {c : Certificate Bytes} (h : Built g c)
    (hid : g.identifier < 2 ^ 64) (hids : ∀ id ∈ g.receivers ++ [g.crypto.myId], id < 2 ^ 32)
    (hi : c.index < 2 ^ 64) (hs : c.buffer.length < 2 ^ 64) : c.Encodable where
  identifier := h.identifier ▸ hid
  index := hi
  nbShares := h.nbShares
  emitters sh hsh := hids _ (h.emitters sh hsh)
  signatures := h.lengths
  size := hs

end Ubft.Certifier

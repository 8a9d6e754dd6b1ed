import HieroCryptography.Hints.BridgeSession
import HieroCryptography.Tss.Compose
import HieroCryptography.Wraps.BridgeLifecycle

namespace HieroCryptography.Tss

open Rust Hints Wraps

variable {E : Curve} {F : Engine}

/-- The libraries behind `verifyTSS`, with the proof verification key that is installed. Neither
throws. -/
def bridgeLibraries (P : PointCodec E) (C : GroupCodec F) {N : Nova F} (Q : ProofSerde N)
    (proofKey : N.VerifierKey) : Libraries Empty where
  verifyCompressedProof abProof ledgerId hintsVerificationKey :=
    .ok (C.verifyCompressedProof Q (some (some proofKey)) true (some abProof) (some ledgerId)
      (some hintsVerificationKey))
  verifyAggregate hintsSignature message hintsVerificationKey :=
    .ok (P.verifyAggregateMajority (some hintsSignature) (some message)
      (some hintsVerificationKey))

theorem verifyTss_bridges_iff (P : PointCodec E) (C : GroupCodec F) {N : Nova F}
    (Q : ProofSerde N) (proofKey : N.VerifierKey) {k s p ledgerId message : Bytes}
    (hk : k.length = hintsVerificationKeyLength) (hs : s.length = hintsSignatureLength)
    (hp : p.length = compressedWrapsProofLength) (hledger : ledgerId.length = 64)
    (hmessage : message ≠ []) :
    (bridgeLibraries P C Q proofKey).verifyTss (bridgeLibraries P C Q proofKey).computer
        (some ledgerId) (some (k ++ s ++ p)) (some message) = .ok true ↔
      C.verifyCompressedProof Q (some (some proofKey)) true (some p) (some ledgerId) (some k) =
          true ∧
        P.verifyAggregate (some s) (some message) (some k) 1 2 = true := by
  rw [verifyTss_composed hk hs hp _ hledger hmessage, thrown_bind_ok_iff]
  constructor
  · rintro ⟨proved, hproved, h⟩
    cases hproved
    split at h
    · next hproved => exact ⟨hproved, Except.ok.inj h⟩
    · cases h
  · rintro ⟨hproved, hverified⟩
    refine ⟨true, congrArg Except.ok hproved, ?_⟩
    rw [if_pos rfl]
    exact congrArg Except.ok hverified

section Network

variable (P : PointCodec E) (C : GroupCodec F) {G : Gadgets F} {Q : ProofSerde (idealNova G)}
  {crs : CRS E} {k d : ℕ} {τ : Fr} {n : Int32} {rows : List Registration}

/-- A network from its first book to a signed block, over a proof library that is ideal. The roster
of signers is preprocessed and its key handed over at the end of a history of handovers. Whatever
shares have passed their check then make a signature that composes with the key and the proof, and
of all ledger identifiers `verifyTSS` accepts it for the one of the first network, exactly when the
signers hold more than half of the weight, their keys do not cancel and the evaluation point is off
the domain. -/
theorem network_signature_verifies (hk : 1 ≤ k) (hk' : k ≤ 6) (hcrs : Kzg.WellFormed crs τ)
    (hg : crs.powersOfG.length = d + 1) (hh : crs.powersOfH.length = d + 1) (hkd : 2 ^ k ≤ d)
    (hd : d ≤ 64) (hn : n.toInt = 2 ^ k) (hnodup : (rows.map (·.partyId)).Nodup)
    (hweights : acceptsWeights (rows.map (·.weight)) = true)
    (hhints : ∀ r ∈ rows, P.validateHintsKey (some (P.crs.write crs)) (some r.hintsPublicKey)
      r.partyId n = true)
    (hE : G.Enforcing) (hS : G.Serving) (hU : Q.uncompressed.RoundTrips)
    (hC : Q.compressed.RoundTrips) (pp : (idealNova G).PublicParams) :
    ∃ vk ak, P.preprocessRows (P.crs.write crs) rows n = some (vk, ak) ∧ vk ≠ [] ∧
      ∀ first rest, (∀ h ∈ first :: rest, C.Ready h) → first.next = C.prevArrays first →
        (first :: rest).IsChain (fun a b ↦ C.prevArrays b = a.next) →
        (rest.getLastD first).tssVerificationKey = vk →
        ∃ genesisHash ledgerId signatures running compressed,
          C.Lived Q pp first rest genesisHash ledgerId signatures running compressed ∧
          ∀ message shares, shares ≠ [] →
            (∀ s ∈ shares, P.verifyBls (some s.partialSignature) (some message) (some ak)
              s.partyId = true) →
            ∃ π, P.aggregateShares (P.crs.write crs) ak vk shares = some π ∧
              (compressed.length = compressedWrapsProofLength → ∃ array,
                (composeSignature (some vk) (some π) (some compressed) :
                  Except (Thrown Empty) Bytes) = .ok array ∧
                ∀ proofKey, setupCompressedVerifier (idealNova G) pp = .ok proofKey →
                  ∀ ledgerId' : Bytes, ledgerId'.length = 64 →
                    ((bridgeLibraries P C Q proofKey).verifyTss
                        (bridgeLibraries P C Q proofKey).computer (some ledgerId') (some array)
                        (some message) = .ok true ↔
                      ledgerId' = ledgerId ∧
                      (rows.map (·.weight.toInt)).sum <
                        2 * ((signedRows rows shares).map (·.weight.toInt)).sum ∧
                      ((signedRows rows shares).filterMap P.publicKeyOf).sum ≠ 0 ∧
                      ∃ r, P.evaluationPoint vk π = some r ∧ r ^ 2 ^ k ≠ 1)) := by
  obtain ⟨vk, ak, hpre, hkeys⟩ :=
    P.exists_sessionKeys hk hk' hcrs hg hh hkd hd hn hnodup hweights hhints
  refine ⟨vk, ak, hpre, List.ne_nil_of_length_pos (hkeys.length ▸ by decide),
    fun first rest hready honto hchain hvk ↦ ?_⟩
  obtain ⟨genesisHash, ledgerId, signatures, running, compressed, hlived⟩ :=
    GroupCodec.exists_lived C hE hS hU hC pp hready honto hchain
  refine ⟨genesisHash, ledgerId, signatures, running, compressed, hlived,
    fun message shares hne hver ↦ ?_⟩
  obtain ⟨-, π, hagg, hπ, hverify⟩ := hkeys.aggregates message shares hne hver
  have hmessage : message ≠ [] := by
    obtain ⟨s, hs⟩ := List.exists_mem_of_ne_nil shares hne
    exact (PointCodec.verifyBls_eq_true_iff.mp (hver s hs)).2.1
  refine ⟨π, hagg, fun hproof ↦ ⟨_, composeSignature_ok_iff.mpr
    ⟨vk, π, compressed, rfl, rfl, rfl, hkeys.length, hπ, hproof, rfl⟩,
    fun proofKey hsetup ledgerId' hledger ↦ ?_⟩⟩
  rw [verifyTss_bridges_iff P C Q proofKey hkeys.length hπ hproof hledger hmessage,
    hlived.compressed_iff proofKey hsetup, hverify, hvk]
  constructor
  · rintro ⟨⟨-, -, rfl, -⟩, -, -, hweight, hrest⟩
    exact ⟨rfl, by simpa using hweight, hrest⟩
  · rintro ⟨rfl, hweight, hrest⟩
    exact ⟨⟨hproof, hkeys.length, rfl, rfl⟩, by decide, by decide, by simpa using hweight, hrest⟩

/-- The two parties of the toy roster sign, and the network of two steps that hands over their key
has the signature verified. -/
theorem network_signature_verifies_pair : ∃ hint₀ hint₁ vk ak,
    wideCodec.preprocessRows (wideCodec.crs.write PointCodec.pairCrs)
        (PointCodec.pairRows hint₀ hint₁) 4 = some (vk, ak) ∧
      ∃ T genesisHash ledgerId signatures running compressed σ₀ σ₁ π array,
        zeroCodec.Lived (GroupCodec.pairProofSerde T) () (GroupCodec.pairHandover [1])
          [GroupCodec.pairHandover vk] genesisHash ledgerId signatures running compressed ∧
        wideCodec.verifyBls (some σ₀) (some [1]) (some ak) 0 = true ∧
        wideCodec.verifyBls (some σ₁) (some [1]) (some ak) 1 = true ∧
        wideCodec.aggregateShares (wideCodec.crs.write PointCodec.pairCrs) ak vk
          [⟨0, σ₀⟩, ⟨1, σ₁⟩] = some π ∧
        (composeSignature (some vk) (some π) (some compressed) : Except (Thrown Empty) Bytes) =
          .ok array ∧
        (bridgeLibraries wideCodec zeroCodec (GroupCodec.pairProofSerde T) ()).verifyTss
          (bridgeLibraries wideCodec zeroCodec (GroupCodec.pairProofSerde T) ()).computer
          (some ledgerId) (some array) (some [1]) = .ok true := by
  obtain ⟨hint₀, hint₁, vk, ak, σ₀, σ₁, hvalid, hpre, hlen, hσ₀, hσ₁, hkeys⟩ :=
    PointCodec.exists_pair_session
  have hvk : vk ≠ [] := List.ne_nil_of_length_pos (hlen ▸ by decide)
  obtain ⟨T, hT, hlength⟩ := GroupCodec.exists_pair_format hvk
  obtain ⟨vk', ak', hpre', -, hnetwork⟩ := network_signature_verifies wideCodec zeroCodec
    one_le_two (by decide) PointCodec.wellFormed_pairCrs rfl rfl le_rfl (by decide)
    (show (4 : Int32).toInt = 2 ^ 2 from rfl) (PointCodec.pairRows_nodup _ _)
    (PointCodec.pairRows_weights _ _) hvalid
    (directGadgets_enforcing GroupCodec.zeroDecoder) (directGadgets_serving GroupCodec.zeroDecoder)
    (GroupCodec.pairProofSerde_roundTrips T) hT ()
  cases hpre.symm.trans hpre'
  obtain ⟨genesisHash, ledgerId, signatures, running, compressed, hlived, hsign⟩ :=
    hnetwork (GroupCodec.pairHandover [1]) [GroupCodec.pairHandover vk]
      (GroupCodec.pairHandovers_ready hvk) rfl (GroupCodec.pairHandovers_chain vk) rfl
  obtain ⟨π, hagg, hcompose⟩ := hsign [1] [⟨0, σ₀⟩, ⟨1, σ₁⟩] (List.cons_ne_nil _ _)
    (List.forall_mem_cons.mpr ⟨hσ₀, List.forall_mem_singleton.mpr hσ₁⟩)
  obtain ⟨array, harray, hverify⟩ :=
    hcompose (hlength _ _ _ _ hlived.hash hlived.signed hlived.proved)
  have hverified := (hverify () rfl ledgerId hlived.length_ledgerId).mpr
    ⟨rfl, (by decide : (1 + 2 : ℤ) < 2 * (1 + 2)), hkeys, 0, PointCodec.evaluationPoint_wide hagg,
      by simp⟩
  exact ⟨hint₀, hint₁, vk, ak, hpre, T, genesisHash, ledgerId, signatures, running, compressed, σ₀,
    σ₁, π, array, hlived, hσ₀, hσ₁, hagg, harray, hverified⟩

end Network

end HieroCryptography.Tss

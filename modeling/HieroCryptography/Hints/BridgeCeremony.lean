import HieroCryptography.Hints.LibraryBridge
import HieroCryptography.Hints.Ceremony

namespace HieroCryptography.Hints

open Rust Native

variable {E : Curve}

inductive CeremonyCall
  | update (random : Bytes)
  | prune (signersNum : Int16)

/-- What the other nodes are shown of an update. -/
structure CrsUpdate where
  prevCrs : Bytes
  nextCrs : Bytes
  contributionProof : Bytes

namespace CeremonyCall

def operation : CeremonyCall → Operation
  | update random => .contribute random
  | prune signersNum => .prune (asUsize signersNum.toInt)

/-- The bridge's own conditions on the arguments. -/
def Accepted : CeremonyCall → Prop
  | update random => random.length = randomSize
  | prune signersNum => 1 ≤ signersNum.toInt ∧ signersNum.toInt ≤ 64

end CeremonyCall

namespace PointCodec

variable (P : PointCodec E)

/-- The last 128 bytes of what `updateCRS` answers are the proof. -/
def ceremonyStep (crs : Bytes) : CeremonyCall → Option (Bytes × List CrsUpdate)
  | .update random => do
    let out ← P.updateCrs (some crs) (some random)
    let nextCrs := out.take (out.length - 128)
    let contributionProof := out.drop (out.length - 128)
    some (nextCrs, [{ prevCrs := crs, nextCrs, contributionProof }])
  | .prune signersNum => do
    let nextCrs ← P.pruneCrs (some crs) signersNum
    some (nextCrs, [])

def ceremonyRun (crs : Bytes) : List CeremonyCall → Option (Bytes × List CrsUpdate)
  | [] => some (crs, [])
  | call :: calls => do
    let (next, log) ← P.ceremonyStep crs call
    let (last, rest) ← ceremonyRun next calls
    some (last, log ++ rest)

def updateOf (c : Contribution E) : CrsUpdate where
  prevCrs := P.crs.write c.prev
  nextCrs := P.crs.write c.next
  contributionProof := P.contributionProof.write c.proof

theorem write_crs_ne_nil (crs : CRS E) : P.crs.write crs ≠ [] := by
  apply List.ne_nil_of_length_pos
  rw [P.length_write_crs]
  omega

def Fits (crs : CRS E) : Prop := crs.powersOfG.length < 2 ^ 64 ∧ crs.powersOfH.length < 2 ^ 64

theorem decode_write_crs {crs : CRS E} (h : Fits crs) : P.crs.decode (P.crs.write crs) = some crs :=
  (P.crs_reads h.1 h.2).decode_write

theorem fits_of_contribute {crs next : CRS E} {seed : Bytes} {proof : ContributionProof E}
    (hcrs : Fits crs) (h : contribute crs seed = .ok (next, proof)) : Fits next := by
  simp only [contribute, bind_ok_iff, Except.ok.injEq, Prod.mk.injEq] at h
  obtain ⟨_, _, _, _, _, _, _, _, _, _, rfl, _⟩ := h
  simp only [Fits, List.length_zipWith]
  exact ⟨(Nat.min_le_left _ _).trans_lt hcrs.1, (Nat.min_le_left _ _).trans_lt hcrs.2⟩

theorem fits_of_pruneCrs {crs next : CRS E} {d : ℕ} (hcrs : Fits crs)
    (h : Hints.pruneCrs crs d = .ok next) : Fits next := by
  simp only [Hints.pruneCrs, bind_ok_iff, Except.ok.injEq] at h
  obtain ⟨_, _, _, _, g, hg, h', hh, rfl⟩ := h
  exact ⟨(length_of_slice hg).trans_lt hcrs.1, (length_of_slice hh).trans_lt hcrs.2⟩

/-- A call of the bridge does to the bytes what its operation does to the string. -/
theorem ceremonyStep_of_runOperation {crs next : CRS E} {call : CeremonyCall}
    {log : List (Contribution E)} (hcall : call.Accepted) (hcrs : Fits crs)
    (h : runOperation crs call.operation = .ok (next, log)) :
    P.ceremonyStep (P.crs.write crs) call = some (P.crs.write next, log.map P.updateOf) ∧
      Fits next ∧ ∀ c ∈ log, Fits c.prev ∧ Fits c.next := by
  cases call with
  | update random =>
    simp only [runOperation, CeremonyCall.operation, bind_ok_iff, Prod.exists, Except.ok.injEq,
      Prod.mk.injEq] at h
    obtain ⟨next', proof, hcontribute, rfl, rfl⟩ := h
    have hnext := fits_of_contribute hcrs hcontribute
    refine ⟨?_, hnext, List.forall_mem_singleton.mpr ⟨hcrs, hnext⟩⟩
    have hout := updateCrs_eq_some_iff.mpr ⟨P.write_crs_ne_nil crs, hcall, crs, next', proof,
      P.decode_write_crs hcrs, hcontribute, rfl⟩
    have hproof := P.contributionProof_takes.length_write (P.contributionProof_reads proof)
    have hcut : (P.crs.write next' ++ P.contributionProof.write proof).length - 128 =
        (P.crs.write next').length := by
      rw [List.length_append, hproof, Nat.add_sub_cancel]
    simp only [ceremonyStep, hout, Option.bind_eq_bind, Option.bind_some, hcut,
      List.take_left', List.drop_left', List.map_cons, List.map_nil, updateOf]
  | prune signersNum =>
    simp only [runOperation, CeremonyCall.operation, bind_ok_iff, Except.ok.injEq,
      Prod.mk.injEq] at h
    obtain ⟨next', hprune, rfl, rfl⟩ := h
    refine ⟨?_, fits_of_pruneCrs hcrs hprune, List.forall_mem_nil _⟩
    have hout := pruneCrs_eq_some_iff.mpr ⟨hcall.1, hcall.2, crs, next', P.decode_write_crs hcrs,
      hprune, rfl⟩
    simp only [ceremonyStep, hout, Option.bind_eq_bind, Option.bind_some, List.map_nil]

theorem ceremonyRun_of_run {crs last : CRS E} {calls : List CeremonyCall}
    {log : List (Contribution E)} (hcalls : ∀ call ∈ calls, call.Accepted) (hcrs : Fits crs)
    (h : run crs (calls.map CeremonyCall.operation) = .ok (last, log)) :
    P.ceremonyRun (P.crs.write crs) calls = some (P.crs.write last, log.map P.updateOf) ∧
      ∀ c ∈ log, Fits c.prev ∧ Fits c.next := by
  induction calls generalizing crs log with
  | nil =>
    cases h
    exact ⟨rfl, List.forall_mem_nil _⟩
  | cons call calls ih =>
    rw [List.forall_mem_cons] at hcalls
    simp only [List.map_cons, run, bind_ok_iff, Prod.exists, Except.ok.injEq, Prod.mk.injEq] at h
    obtain ⟨next, log₁, hstep, last', log₂, hrun, rfl, rfl⟩ := h
    obtain ⟨hcall, hnext, hlog₁⟩ := P.ceremonyStep_of_runOperation hcalls.1 hcrs hstep
    obtain ⟨hrest, hlog₂⟩ := ih hcalls.2 hnext hrun
    refine ⟨?_, List.forall_mem_append.mpr ⟨hlog₁, hlog₂⟩⟩
    simp only [ceremonyRun, hcall, hrest, Option.bind_eq_bind, Option.bind_some, List.map_append]

theorem verifyCrs_updateOf {c : Contribution E} (hprev : Fits c.prev) (hnext : Fits c.next)
    (h : verifyContribution c.prev c.next c.proof = .ok true) :
    P.verifyCrs (some (P.updateOf c).prevCrs) (some (P.updateOf c).nextCrs)
      (some (P.updateOf c).contributionProof) = true :=
  verifyCrs_eq_true_iff.mpr ⟨P.write_crs_ne_nil _, P.write_crs_ne_nil _, c.prev, c.next, c.proof,
    P.decode_write_crs hprev, P.decode_write_crs hnext,
    (P.contributionProof_reads c.proof).decode_write, h⟩

theorem validateCrs_powersOfTau {d : ℕ} {τ : Fr} {n : Int32} :
    validateCrs (some (P.crs.write (powersOfTau E d τ))) n = true ↔
      ∃ k < 7, n.toInt = 2 ^ k ∧ 2 ^ k ≤ d := by
  obtain ⟨hg, hh⟩ := powersOfTau_length (E := E) d τ
  have hlen : (P.crs.write (powersOfTau E d τ)).length = 304 + 288 * d := by
    rw [P.length_write_crs, hg, hh]
    omega
  rw [validateCrs_iff, hlen]
  refine exists_congr fun k ↦ and_congr_right fun _ ↦ and_congr_right fun _ ↦ ?_
  omega

theorem initCrs_eq {signersNum : Int16} (hmin : 1 ≤ signersNum.toInt)
    (hmax : signersNum.toInt ≤ 64) :
    P.initCrs signersNum = some (P.crs.write (powersOfTau E signersNum.toInt.toNat 1)) := by
  have hguard : ¬ (signersNum.toInt < 1 ∨ signersNum.toInt > maxSignersNum + 1) := by
    rw [maxSignersNum_add_one]
    omega
  rw [initCrs, initCrsImpl, asUsize_of_nonneg (by omega) (by omega), init_eq_powersOfTau]
  simp only [Bool.or_eq_true, decide_eq_true_eq, hguard, if_false]
  rfl

theorem fits_powersOfTau {d : ℕ} (hd : d ≤ 64) (τ : Fr) : Fits (powersOfTau E d τ) := by
  obtain ⟨hg, hh⟩ := powersOfTau_length (E := E) d τ
  exact ⟨by omega, by omega⟩

theorem updateCrs_degree_one (τ : Fr) (random : Option Bytes) :
    P.updateCrs (some (P.crs.write (powersOfTau E 1 τ))) random = none := by
  cases random with
  | none => rfl
  | some random =>
    rw [Option.eq_none_iff_forall_ne_some]
    intro out hout
    obtain ⟨-, -, prev, next, proof, hprev, hcontribute, -⟩ := updateCrs_eq_some_iff.mp hout
    rw [P.decode_write_crs (fits_powersOfTau (by decide) τ)] at hprev
    obtain rfl := Option.some.inj hprev
    have hg := (powersOfTau_length (E := E) 1 τ).1
    obtain ⟨len, hlen, -⟩ := bind_ok_iff.mp hcontribute
    obtain ⟨hthree, hlen, -⟩ := validateCrsTowerLengths_ok_iff.mp hlen
    omega

/-- A ceremony held through the bridge. For two signers or more: from `initCRS` on, every sequence
of updates with nonzero scalars and of prunings is answered, cutting the answers apart gives updates
that every node's `verifyCRS` accepts, and the bytes at the end are those of the string of the
product of all scalars, which `validateCRS` lets through for exactly the sizes it has room for. For
one signer `initCRS` answers too, with a string that no update is answered for. -/
theorem ceremony_through_bridge :
    (∀ (signersNum : Int16) (calls : List CeremonyCall), 2 ≤ signersNum.toInt →
      signersNum.toInt ≤ 64 → (∀ call ∈ calls, call.Accepted) →
      Admissible E signersNum.toInt.toNat (calls.map CeremonyCall.operation) →
      ∃ start final updates, P.initCrs signersNum = some start ∧
        P.ceremonyRun start calls = some (final, updates) ∧
        final = P.crs.write (powersOfTau E
          (degreeAfter signersNum.toInt.toNat (calls.map CeremonyCall.operation))
          (contributedScalars E (calls.map CeremonyCall.operation)).prod) ∧
        updates.length = (contributedScalars E (calls.map CeremonyCall.operation)).length ∧
        (∀ u ∈ updates,
          P.verifyCrs (some u.prevCrs) (some u.nextCrs) (some u.contributionProof) = true) ∧
        ∀ n, validateCrs (some final) n = true ↔ ∃ k < 7, n.toInt = 2 ^ k ∧
          2 ^ k ≤ degreeAfter signersNum.toInt.toNat (calls.map CeremonyCall.operation)) ∧
    ∃ start, P.initCrs 1 = some start ∧ ∀ random, P.updateCrs (some start) random = none := by
  refine ⟨fun signersNum calls hmin hmax hcalls hadm ↦ ?_,
    ⟨_, P.initCrs_eq (by decide) (by decide), P.updateCrs_degree_one 1⟩⟩
  obtain ⟨log, hrun, hlen, hlog⟩ := run_powersOfTau (by omega) one_ne_zero hadm
  obtain ⟨hbytes, hlogfits⟩ := P.ceremonyRun_of_run hcalls (fits_powersOfTau (by omega) 1) hrun
  rw [one_mul] at hbytes
  refine ⟨_, _, _, P.initCrs_eq (by omega) hmax, hbytes, rfl, by rw [List.length_map, hlen], ?_,
    fun n ↦ P.validateCrs_powersOfTau⟩
  intro u hu
  obtain ⟨c, hc, rfl⟩ := List.mem_map.mp hu
  obtain ⟨hprev, hnext⟩ := hlogfits c hc
  exact P.verifyCrs_updateOf hprev hnext (hlog c hc)

theorem ceremony_through_bridge_update_prune : ∃ start final updates,
    wideCodec.initCrs 3 = some start ∧
    wideCodec.ceremonyRun start [.update (List.replicate 32 0), .prune 2,
      .update (List.replicate 32 1)] = some (final, updates) ∧ updates.length = 2 := by
  obtain ⟨start, final, updates, hstart, hrun, -, hlen, -⟩ :=
    wideCodec.ceremony_through_bridge.1 3
      [.update (List.replicate 32 0), .prune 2, .update (List.replicate 32 1)] (by decide)
      (by decide) (by simp [CeremonyCall.Accepted, randomSize])
      ⟨one_ne_zero, by decide, by decide, one_ne_zero, trivial⟩
  exact ⟨start, final, updates, hstart, hrun, hlen⟩

end PointCodec

end HieroCryptography.Hints

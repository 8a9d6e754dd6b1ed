import HieroCryptography.Tss.Verify

namespace HieroCryptography.Tss

open Rust Foundation

variable {ε : Type}

def copyOf (original : List UInt8) (newLength : ℕ) : List UInt8 :=
  original.take newLength ++ List.replicate (newLength - original.length) 0

/-- `System.arraycopy` of a whole array into a range inside another. -/
def arraycopy (src dest : List UInt8) (destPos : ℕ) : List UInt8 :=
  dest.take destPos ++ src ++ dest.drop (destPos + src.length)

def composeSignature (hintsVerificationKey hintsSignature abProof : Option (List UInt8)) :
    Except (Thrown ε) (List UInt8) := do
  let hintsVerificationKey ← checkArgument hintsVerificationKey
    (·.length == hintsVerificationKeyLength)
    ("`hintsVerificationKey` must have a length of " ++ toString hintsVerificationKeyLength)
  let hintsSignature ← checkArgument hintsSignature (·.length == hintsSignatureLength)
    ("`hintsSignature` must have a length of " ++ toString hintsSignatureLength)
  let abProof ← checkArgument abProof (·.length == compressedWrapsProofLength)
    ("`abProof` must have a length of " ++ toString compressedWrapsProofLength)
  let array := copyOf hintsVerificationKey
    (hintsVerificationKey.length + hintsSignature.length + abProof.length)
  let array := arraycopy hintsSignature array hintsVerificationKey.length
  .ok (arraycopy abProof array (hintsVerificationKey.length + hintsSignature.length))

theorem arraycopy_copyOf (first second third : List UInt8) :
    arraycopy third (arraycopy second
      (copyOf first (first.length + second.length + third.length)) first.length)
      (first.length + second.length) = first ++ second ++ third := by
  have hcopy : copyOf first (first.length + second.length + third.length) =
      first ++ List.replicate (second.length + third.length) 0 := by
    rw [copyOf, List.take_of_length_le (by omega)]
    congr 2
    omega
  have hsecond : arraycopy second (first ++ List.replicate (second.length + third.length) 0)
      first.length = first ++ second ++ List.replicate third.length 0 := by
    rw [arraycopy, List.take_left, List.drop_append, List.drop_replicate]
    simp
  have hlen : (first ++ second).length = first.length + second.length := List.length_append
  rw [hcopy, hsecond, arraycopy, ← hlen, List.take_left, List.drop_append, List.drop_replicate]
  simp

theorem checkArgument_ok_iff {array : Option (List UInt8)} {wellFormed : List UInt8 → Bool}
    {text : String} {bytes : List UInt8} :
    (checkArgument array wellFormed text : Except (Thrown ε) (List UInt8)) = .ok bytes ↔
      array = some bytes ∧ wellFormed bytes = true := by
  cases array with
  | none => simp [checkArgument]
  | some array =>
    by_cases h : wellFormed array = true
    · rw [checkArgument_some h, Except.ok.injEq, Option.some.injEq]
      constructor
      · rintro rfl
        exact ⟨rfl, h⟩
      · exact fun h' ↦ h'.1
    · simp only [checkArgument, if_neg h, reduceCtorEq, Option.some.injEq, false_iff, not_and]
      rintro rfl
      exact h

theorem thrown_bind_ok_iff {α β : Type} {x : Except (Thrown ε) α} {f : α → Except (Thrown ε) β}
    {b : β} : x >>= f = .ok b ↔ ∃ a, x = .ok a ∧ f a = .ok b := by
  cases x with
  | error e =>
    constructor
    · intro h
      cases h
    · rintro ⟨a, h, -⟩
      cases h
  | ok a =>
    constructor
    · intro h
      exact ⟨a, rfl, h⟩
    · rintro ⟨a', h, h'⟩
      cases h
      exact h'

theorem composeSignature_ok_iff {key signature proof : Option (List UInt8)} {array : List UInt8} :
    (composeSignature key signature proof : Except (Thrown ε) (List UInt8)) = .ok array ↔
      ∃ k s p, key = some k ∧ signature = some s ∧ proof = some p ∧
        k.length = hintsVerificationKeyLength ∧ s.length = hintsSignatureLength ∧
        p.length = compressedWrapsProofLength ∧ array = k ++ s ++ p := by
  simp only [composeSignature, thrown_bind_ok_iff, checkArgument_ok_iff, beq_iff_eq]
  constructor
  · rintro ⟨k, ⟨rfl, hk⟩, s, ⟨rfl, hs⟩, p, ⟨rfl, hp⟩, h⟩
    rw [arraycopy_copyOf, Except.ok.injEq] at h
    exact ⟨k, s, p, rfl, rfl, rfl, hk, hs, hp, h.symm⟩
  · rintro ⟨k, s, p, rfl, rfl, rfl, hk, hs, hp, rfl⟩
    exact ⟨k, ⟨rfl, hk⟩, s, ⟨rfl, hs⟩, p, ⟨rfl, hp⟩, by rw [arraycopy_copyOf]⟩

section Parts

variable {k s p : List UInt8} (hk : k.length = hintsVerificationKeyLength)
  (hs : s.length = hintsSignatureLength) (hp : p.length = compressedWrapsProofLength)
include hk hs hp

theorem length_composed : (k ++ s ++ p).length = tssSignatureLength := by
  rw [List.length_append, List.length_append, hk, hs, hp, tssSignatureLength]

theorem verifyTss_composed (L : Libraries ε) {ledgerId message : List UInt8}
    (hledger : ledgerId.length = 64) (hmessage : message ≠ []) :
    L.verifyTss L.computer (some ledgerId) (some (k ++ s ++ p)) (some message) =
      L.verifyCompressedProof p ledgerId k >>= fun proved ↦
        if proved then L.verifyAggregate s message k else .ok false := by
  have hks : (k ++ s).length = hintsVerificationKeyLength + hintsSignatureLength := by
    rw [List.length_append, hk, hs]
  have hkey : (k ++ s ++ p).take hintsVerificationKeyLength = k := by
    rw [List.append_assoc, List.take_left' hk]
  have hsignature : ((k ++ s ++ p).drop hintsVerificationKeyLength).take hintsSignatureLength =
      s := by
    rw [List.append_assoc, List.drop_left' hk, List.take_left' hs]
  rw [verifyTss_eq L L.computer hledger (length_composed hk hs hp) hmessage, hsignature, hkey,
    Libraries.computer, requestKey, hkey, List.drop_left' hks]

end Parts

theorem exists_parts {array : List UInt8} (harray : array.length = tssSignatureLength) :
    ∃ k s p, k.length = hintsVerificationKeyLength ∧ s.length = hintsSignatureLength ∧
      p.length = compressedWrapsProofLength ∧ array = k ++ s ++ p := by
  rw [tssSignatureLength] at harray
  refine ⟨array.take hintsVerificationKeyLength,
    (array.drop hintsVerificationKeyLength).take hintsSignatureLength,
    (array.drop hintsVerificationKeyLength).drop hintsSignatureLength, ?_, ?_, ?_, ?_⟩
  · rw [List.length_take]
    omega
  · rw [List.length_take, List.length_drop]
    omega
  · rw [List.length_drop, List.length_drop]
    omega
  · rw [List.append_assoc, List.take_append_drop, List.take_append_drop]

theorem verifyTss_arguments {L : Libraries ε} {ledgerId tssSignature message : Option (List UInt8)}
    {verdict : Bool} (h : L.verifyTss L.computer ledgerId tssSignature message = .ok verdict) :
    ∃ l array m, ledgerId = some l ∧ l.length = 64 ∧ tssSignature = some array ∧
      array.length = tssSignatureLength ∧ message = some m ∧ m ≠ [] := by
  simp only [Libraries.verifyTss, thrown_bind_ok_iff, checkArgument_ok_iff, beq_iff_eq, bne_iff_ne,
    ne_eq, List.length_eq_zero_iff] at h
  obtain ⟨l, ⟨rfl, hl⟩, array, ⟨rfl, harray⟩, m, ⟨rfl, hm⟩, -⟩ := h
  exact ⟨l, array, m, rfl, hl, rfl, harray, rfl, hm⟩

/-- A composed signature is one of exactly one key, one aggregate and one proof. The verifier only
ever answers on composed signatures, and its answer is that of the two libraries on the three
parts, the second being asked only if the first has said yes. -/
theorem compose_then_verify (L : Libraries ε) :
    (∀ array : List UInt8, array.length = tssSignatureLength →
      ∃! parts : List UInt8 × List UInt8 × List UInt8,
        (composeSignature (some parts.1) (some parts.2.1) (some parts.2.2) :
          Except (Thrown ε) (List UInt8)) = .ok array) ∧
    (∀ ledgerId tssSignature message verdict,
      L.verifyTss L.computer ledgerId tssSignature message = .ok verdict →
      ∃ k s p l array m, (composeSignature (some k) (some s) (some p) :
          Except (Thrown ε) (List UInt8)) = .ok array ∧ tssSignature = some array ∧
        ledgerId = some l ∧ message = some m) ∧
    ∀ k s p array l m,
      (composeSignature (some k) (some s) (some p) : Except (Thrown ε) (List UInt8)) = .ok array →
      l.length = 64 → m ≠ [] →
      L.verifyTss L.computer (some l) (some array) (some m) =
        L.verifyCompressedProof p l k >>= fun proved ↦
          if proved then L.verifyAggregate s m k else .ok false := by
  refine ⟨fun array harray ↦ ?_, fun ledgerId tssSignature message verdict h ↦ ?_,
    fun k s p array l m h hl hm ↦ ?_⟩
  · obtain ⟨k, s, p, hk, hs, hp, rfl⟩ := exists_parts harray
    refine ⟨(k, s, p), composeSignature_ok_iff.mpr ⟨k, s, p, rfl, rfl, rfl, hk, hs, hp, rfl⟩, ?_⟩
    rintro ⟨k', s', p'⟩ h
    obtain ⟨_, _, _, ⟨⟩, ⟨⟩, ⟨⟩, hk', hs', -, happend⟩ := composeSignature_ok_iff.mp h
    rw [List.append_assoc, List.append_assoc] at happend
    obtain ⟨rfl, happend⟩ := List.append_inj happend (hk.trans hk'.symm)
    obtain ⟨rfl, rfl⟩ := List.append_inj happend (hs.trans hs'.symm)
    rfl
  · obtain ⟨l, array, m, rfl, -, rfl, harray, rfl, -⟩ := verifyTss_arguments h
    obtain ⟨k, s, p, hk, hs, hp, harray⟩ := exists_parts harray
    exact ⟨k, s, p, l, array, m, composeSignature_ok_iff.mpr
      ⟨k, s, p, rfl, rfl, rfl, hk, hs, hp, harray⟩, rfl, rfl, rfl⟩
  · obtain ⟨_, _, _, ⟨⟩, ⟨⟩, ⟨⟩, hk, hs, hp, rfl⟩ := composeSignature_ok_iff.mp h
    exact verifyTss_composed hk hs hp L hl hm

theorem compose_then_verify_zeros :
    ∃ array, (composeSignature (some (List.replicate hintsVerificationKeyLength 0))
        (some (List.replicate hintsSignatureLength 0))
        (some (List.replicate compressedWrapsProofLength 0)) : Except (Thrown Unit) _) = .ok array ∧
      lenientLibraries.verifyTss lenientLibraries.computer (some (List.replicate 64 0))
        (some array) (some [7]) = .ok true := by
  have hcompose : (composeSignature (some (List.replicate hintsVerificationKeyLength 0))
      (some (List.replicate hintsSignatureLength 0))
      (some (List.replicate compressedWrapsProofLength 0)) : Except (Thrown Unit) _) = .ok _ :=
    composeSignature_ok_iff.mpr ⟨_, _, _, rfl, rfl, rfl, List.length_replicate,
      List.length_replicate, List.length_replicate, rfl⟩
  exact ⟨_, hcompose, (compose_then_verify lenientLibraries).2.2 _ _ _ _ _ _ hcompose
    List.length_replicate (List.cons_ne_nil 7 [])⟩

end HieroCryptography.Tss

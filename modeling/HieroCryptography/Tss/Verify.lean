import HieroCryptography.Tss.LruCache

namespace HieroCryptography.Tss

open Rust Foundation

/-- The key of a cached verdict. Two keys are equal when the three arrays have equal contents. -/
structure Key where
  abProof : List UInt8
  ledgerId : List UInt8
  hintsVerificationKey : List UInt8
  deriving DecidableEq

inductive Thrown (ε : Type)
  | illegalArgument (message : String)
  | other (e : ε)

variable {ε : Type}

def hintsVerificationKeyLength : ℕ := 1096

def hintsSignatureLength : ℕ := 9 * 96 + 192 + 6 * 32

def compressedWrapsProofLength : ℕ := 11368

def tssSignatureLength : ℕ :=
  hintsVerificationKeyLength + hintsSignatureLength + compressedWrapsProofLength

/-- A null array is `none`. -/
def lengthText : Option (List UInt8) → String
  | none => "null"
  | some array => toString array.length

def checkArgument (array : Option (List UInt8)) (wellFormed : List UInt8 → Bool)
    (message : String) : Except (Thrown ε) (List UInt8) :=
  match array with
  | none => .error (.illegalArgument message)
  | some array => if wellFormed array then .ok array else .error (.illegalArgument message)

def copyOfRange (original : List UInt8) (start stop : ℕ) : List UInt8 :=
  (original.take stop).drop start

structure Libraries (ε : Type) where
  verifyCompressedProof : List UInt8 → List UInt8 → List UInt8 → Except (Thrown ε) Bool
  verifyAggregate : List UInt8 → List UInt8 → List UInt8 → Except (Thrown ε) Bool

namespace Libraries

variable (L : Libraries ε)

def computer (key : Key) : Except (Thrown ε) Bool :=
  L.verifyCompressedProof key.abProof key.ledgerId key.hintsVerificationKey

/-- `get` is what the proof cache answers. -/
def verifyTss (get : Key → Except (Thrown ε) Bool)
    (ledgerId tssSignature message : Option (List UInt8)) : Except (Thrown ε) Bool := do
  let ledgerId ← checkArgument ledgerId (·.length == 64)
    ("`ledgerId` must be a 64 bytes array, instead got " ++ lengthText ledgerId)
  let tssSignature ← checkArgument tssSignature (·.length == tssSignatureLength)
    ("`tssSignature` has a wrong length. Expected " ++ toString tssSignatureLength ++
      " bytes, instead got " ++ lengthText tssSignature)
  let message ← checkArgument message (·.length != 0) "`message` must be a non-empty array"
  let hintsVerificationKey := copyOfRange tssSignature 0 hintsVerificationKeyLength
  let abProof := copyOfRange tssSignature (hintsVerificationKeyLength + hintsSignatureLength)
    tssSignature.length
  if !(← get ⟨abProof, ledgerId, hintsVerificationKey⟩) then
    return false
  let hintsSignature := copyOfRange tssSignature hintsVerificationKeyLength
    (hintsVerificationKeyLength + hintsSignatureLength)
  L.verifyAggregate hintsSignature message hintsVerificationKey

end Libraries

def wrapsProofCache : LruCache Key Bool := .new 8

section Request

variable {ledgerId tssSignature message : List UInt8}

def requestKey (ledgerId tssSignature : List UInt8) : Key :=
  ⟨tssSignature.drop (hintsVerificationKeyLength + hintsSignatureLength), ledgerId,
    tssSignature.take hintsVerificationKeyLength⟩

theorem checkArgument_some {array : List UInt8} {wellFormed : List UInt8 → Bool}
    (h : wellFormed array = true) (text : String) :
    (checkArgument (some array) wellFormed text : Except (Thrown ε) (List UInt8)) = .ok array :=
  if_pos h

theorem verifyTss_eq (L : Libraries ε) (get : Key → Except (Thrown ε) Bool)
    (hledger : ledgerId.length = 64) (hsignature : tssSignature.length = tssSignatureLength)
    (hmessage : message ≠ []) :
    L.verifyTss get (some ledgerId) (some tssSignature) (some message) =
      get (requestKey ledgerId tssSignature) >>= fun proved ↦
        if proved then
          L.verifyAggregate
            ((tssSignature.drop hintsVerificationKeyLength).take hintsSignatureLength) message
            (tssSignature.take hintsVerificationKeyLength)
        else .ok false := by
  have hproof (n : ℕ) : copyOfRange tssSignature n tssSignature.length = tssSignature.drop n := by
    rw [copyOfRange, List.take_length]
  have hsig : copyOfRange tssSignature hintsVerificationKeyLength
      (hintsVerificationKeyLength + hintsSignatureLength) =
      (tssSignature.drop hintsVerificationKeyLength).take hintsSignatureLength := by
    rw [copyOfRange, List.drop_take, Nat.add_sub_cancel_left]
  have hledger' : (ledgerId.length == 64) = true := beq_iff_eq.mpr hledger
  have hsignature' : (tssSignature.length == tssSignatureLength) = true := beq_iff_eq.mpr hsignature
  have hmessage' : (message.length != 0) = true := by
    rw [bne_iff_ne, Ne, List.length_eq_zero_iff]
    exact hmessage
  rw [Libraries.verifyTss, checkArgument_some hledger', checkArgument_some hsignature',
    checkArgument_some hmessage']
  change get ⟨copyOfRange tssSignature _ tssSignature.length, ledgerId, _⟩ >>= _ = _
  rw [hproof]
  refine bind_congr fun proved ↦ ?_
  rw [hsig]
  cases proved <;> rfl

end Request

/-- Calls that share a cache never see that it is there, in whatever order their synchronized
blocks come. So `verifyTSS` gives the conjunction of the two verdicts on the three parts of its
signature, whatever calls came before or are under way. -/
theorem verify_tss_as_uncached :
    (∀ (K V ε : Type) [DecidableEq K] (size : ℕ) (computer : K → Except ε V)
      (events : List (Event K)) (s : System (LruCache K V) K V ε),
      (System.init (.new size)).run (LruCache.object computer) events = some s →
        LruCache.Transparent size computer s) ∧
    ∀ (ε : Type) (L : Libraries ε) (events : List (Event Key))
      (s : System (LruCache Key Bool) Key Bool (Thrown ε)),
      (System.init wrapsProofCache).run (LruCache.object L.computer) events = some s →
      ∀ ledgerId tssSignature message : List UInt8, ledgerId.length = 64 →
        tssSignature.length = tssSignatureLength → message ≠ [] →
      ∀ get, .returned (requestKey ledgerId tssSignature)
          (get (requestKey ledgerId tssSignature)) ∈ s.calls →
        L.verifyTss get (some ledgerId) (some tssSignature) (some message) =
            L.verifyTss L.computer (some ledgerId) (some tssSignature) (some message) ∧
          ∀ proved verified,
            L.verifyCompressedProof
                (tssSignature.drop (hintsVerificationKeyLength + hintsSignatureLength)) ledgerId
                (tssSignature.take hintsVerificationKeyLength) = .ok proved →
            L.verifyAggregate
                ((tssSignature.drop hintsVerificationKeyLength).take hintsSignatureLength) message
                (tssSignature.take hintsVerificationKeyLength) = .ok verified →
            L.verifyTss get (some ledgerId) (some tssSignature) (some message) =
              .ok (proved && verified) := by
  refine ⟨fun K V ε _ size computer events s hrun ↦ LruCache.transparent_of_run hrun, ?_⟩
  intro ε L events s hrun ledgerId tssSignature message hledger hsignature hmessage get hreturned
  have hget := (LruCache.transparent_of_run hrun).returned _ _ hreturned
  rw [verifyTss_eq L get hledger hsignature hmessage,
    verifyTss_eq L L.computer hledger hsignature hmessage, hget]
  refine ⟨rfl, fun proved verified hproved hverified ↦ ?_⟩
  have hcomputer : L.computer (requestKey ledgerId tssSignature) = .ok proved := hproved
  rw [hcomputer, hverified]
  cases proved <;> rfl

/-- Libraries that accept every proof, and the signatures of messages of one byte. -/
def lenientLibraries : Libraries Unit :=
  ⟨fun _ _ _ ↦ .ok true, fun _ message _ ↦ .ok (message.length == 1)⟩

/-- Two calls for a key both miss, and a third one hits what they have left. -/
def racingCalls (key : Key) : List (Event Key) :=
  [.call key, .call key, .lookup 0, .lookup 1, .compute 1, .compute 0, .insert 0, .insert 1,
    .call key, .lookup 2]

theorem run_racingCalls (key : Key) : (System.init wrapsProofCache).run
    (LruCache.object lenientLibraries.computer) (racingCalls key) =
      some ⟨⟨(∅ : AList _).insert key true, [key], 8⟩, List.replicate 3 (.returned key (.ok true)),
        [key, key, key], false⟩ := by
  have hlookup : (AList.singleton key true : AList fun _ : Key ↦ Bool).lookup key = some true := by
    rw [← AList.insert_empty, AList.lookup_insert]
  simp [System.run, racingCalls, System.init, System.step, LruCache.object, LruCache.hitBlock,
    LruCache.insertBlock, LruCache.accessKey, wrapsProofCache, LruCache.new, Libraries.computer,
    lenientLibraries, hlookup, List.replicate]

theorem verify_tss_as_uncached_race : ∃ s : System (LruCache Key Bool) Key Bool (Thrown Unit),
    (System.init wrapsProofCache).run (LruCache.object lenientLibraries.computer)
        (racingCalls (requestKey (List.replicate 64 0) (List.replicate tssSignatureLength 0))) =
      some s ∧ s.accessed.length = 3 ∧
    lenientLibraries.verifyTss (fun _ ↦ .ok true) (some (List.replicate 64 0))
      (some (List.replicate tssSignatureLength 0)) (some [7]) = .ok true :=
  ⟨_, run_racingCalls _, rfl,
    (verify_tss_as_uncached.2 Unit lenientLibraries _ _ (run_racingCalls _) _ _ [7]
      List.length_replicate List.length_replicate (List.cons_ne_nil 7 []) (fun _ ↦ .ok true)
      List.mem_cons_self).2 true true rfl rfl⟩

end HieroCryptography.Tss

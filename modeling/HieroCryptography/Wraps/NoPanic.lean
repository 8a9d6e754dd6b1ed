import HieroCryptography.Rust.Meets
import HieroCryptography.Wraps.Proof

namespace HieroCryptography.Wraps

open Rust

variable {E : Engine}

section Serialization

variable {T : Type} (S : Bincode T)

end Serialization

namespace Multisig

variable {msg : List E.Base} {publicKeys : List E.GE} {round1 : List MultisigRound1}
  {round2 : List (MultisigRound2 E)} {round3 : List (MultisigRound3 E)}

theorem checkOpenings_meets (hlen : round1.length = round2.length) :
    Meets (checkOpenings round1 round2) fun _ ↦ True := by
  refine meets_forM fun turn hturn ↦ ?_
  have hi := (List.mem_zipIdx' hturn).1
  exact (meets_index (hlen ▸ hi)).bind fun _ _ ↦ (meets_require _ _).mono fun _ _ ↦ trivial

theorem aggregateKey_meets (keys : List E.GE) : Meets (aggregateKey keys) fun _ ↦ True := by
  cases keys with
  | nil => exact meets_fail _ _
  | cons key keys => exact meets_ok trivial

theorem challenge_meets : Meets (challenge msg publicKeys round1 round2) fun _ ↦
    round2.length = publicKeys.length := by
  refine (meets_require _ _).bind fun _ _ ↦ ?_
  refine (meets_require _ _).bind fun _ hlen ↦ ?_
  simp only [ne_eq, not_or, not_not, decide_eq_true_eq] at hlen
  refine (checkOpenings_meets (hlen.1.trans hlen.2.symm)).bind fun _ _ ↦ ?_
  refine (aggregateKey_meets _).bind fun _ _ ↦ ?_
  refine (aggregateKey_meets _).bind fun _ _ ↦ ?_
  exact (meets_require _ _).bind fun _ _ ↦ meets_ok hlen.2

theorem checkShares_meets (e : E.Base) (hlen₂ : round2.length = publicKeys.length)
    (hlen₃ : round3.length = publicKeys.length) :
    Meets (checkShares e publicKeys round2 round3) fun _ ↦ True := by
  refine meets_forM fun turn hturn ↦ ?_
  have hi := (List.mem_zipIdx' hturn).1
  refine (meets_require _ _).bind fun _ _ ↦ ?_
  refine (meets_index (hlen₃ ▸ hi)).bind fun _ _ ↦ ?_
  refine (meets_index (hlen₂ ▸ hlen₃ ▸ hi)).bind fun _ _ ↦ ?_
  exact (meets_require _ _).mono fun _ _ ↦ trivial

theorem aggregate_meets :
    Meets (aggregate msg publicKeys round1 round2 round3) fun _ ↦ True := by
  refine (meets_require _ _).bind fun _ hlen₃ ↦ ?_
  refine challenge_meets.bind fun e hlen₂ ↦ ?_
  refine (checkShares_meets e hlen₂ (by simpa using hlen₃)).bind fun _ _ ↦ ?_
  exact meets_ok trivial

end Multisig

section Books

variable (ab : AddressBook E) (bitvector : BitVector)

end Books

section Protocol

variable (S : Serde E)

end Protocol

end HieroCryptography.Wraps

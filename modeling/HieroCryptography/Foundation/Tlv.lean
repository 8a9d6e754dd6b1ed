import HieroCryptography.Foundation.Bytes

namespace HieroCryptography.Foundation

def byteWidth (n : ℕ) : ℕ := Nat.log 256 n + 1

def derLength (n : ℕ) : List UInt8 :=
  if n < 128 then [UInt8.ofNat n]
  else UInt8.ofNat (128 + byteWidth n) :: toBigEndian (byteWidth n) n

structure Item where
  tag : UInt8
  content : List UInt8
  deriving DecidableEq

def Item.encoding (item : Item) : List UInt8 :=
  item.tag :: (derLength item.content.length ++ item.content)

def lowTag (tag : UInt8) : Bool := tag &&& 0x1f != 0x1f

section Read

/-- Reads a definite length, which must not be longer than it needs to be. -/
def readLength : List UInt8 → Option (ℕ × List UInt8)
  | [] => none
  | first :: rest =>
    if first.toNat < 128 then some (first.toNat, rest)
    else
      let width := first.toNat - 128
      let n := ofBigEndian (rest.take width)
      if width ≤ rest.length ∧ 128 ≤ n ∧ 256 ^ (width - 1) ≤ n then some (n, rest.drop width)
      else none

def readItem : List UInt8 → Option (Item × List UInt8)
  | [] => none
  | tag :: rest =>
    if lowTag tag then
      (readLength rest).bind fun (n, rest) ↦
        if n ≤ rest.length then some (⟨tag, rest.take n⟩, rest.drop n) else none
    else none

def readItems : ℕ → List UInt8 → Option (List Item)
  | _, [] => some []
  | 0, _ :: _ => none
  | fuel + 1, b :: bytes =>
    (readItem (b :: bytes)).bind fun (item, rest) ↦ (readItems fuel rest).map (item :: ·)

def splitItems (bytes : List UInt8) : Option (List Item) := readItems bytes.length bytes

end Read

theorem byteWidth_eq_iff {n width : ℕ} (hn : n ≠ 0) :
    byteWidth n = width + 1 ↔ 256 ^ width ≤ n ∧ n < 256 ^ (width + 1) := by
  rw [byteWidth, Nat.succ_inj, Nat.log_eq_iff (Or.inr ⟨by norm_num, hn⟩)]

theorem byteWidth_le {n : ℕ} (h : n < 2 ^ 31) : byteWidth n ≤ 4 := by
  have hlog : Nat.log 256 n < 4 := Nat.log_lt_of_lt_pow' (by norm_num) (h.trans (by norm_num))
  exact hlog

theorem lt_pow_byteWidth (n : ℕ) : n < 256 ^ byteWidth n := Nat.lt_pow_succ_log_self (by norm_num) n

theorem Item.length_content_lt (item : Item) : item.content.length < item.encoding.length := by
  rw [encoding, List.length_cons, List.length_append]
  omega

theorem readLength_derLength_append {n : ℕ} (h : n < 2 ^ 31) (rest : List UInt8) :
    readLength (derLength n ++ rest) = some (n, rest) := by
  unfold derLength
  split
  · next hshort =>
    have hn : (UInt8.ofNat n).toNat = n := by
      rw [UInt8.toNat_ofNat']
      omega
    rw [List.singleton_append, readLength, hn, if_pos hshort]
  · next hlong =>
    have hwidth := byteWidth_le h
    have hfirst : (UInt8.ofNat (128 + byteWidth n)).toNat = 128 + byteWidth n := by
      rw [UInt8.toNat_ofNat']
      omega
    have htake : (toBigEndian (byteWidth n) n ++ rest).take (byteWidth n) =
        toBigEndian (byteWidth n) n := List.take_left' (length_toBigEndian _ _)
    have hmin : 256 ^ (byteWidth n - 1) ≤ n := Nat.pow_log_le_self 256 (by omega)
    rw [List.cons_append, readLength, hfirst, if_neg (by omega)]
    simp only [Nat.add_sub_cancel_left, htake, ofBigEndian_toBigEndian (lt_pow_byteWidth n)]
    rw [if_pos, List.drop_left' (length_toBigEndian _ _)]
    refine ⟨?_, by omega, hmin⟩
    rw [List.length_append, length_toBigEndian]
    exact Nat.le_add_right _ _

theorem readItem_encoding_append {item : Item} (htag : lowTag item.tag = true)
    (hlen : item.content.length < 2 ^ 31) (rest : List UInt8) :
    readItem (item.encoding ++ rest) = some (item, rest) := by
  have hle : item.content.length ≤ (item.content ++ rest).length := by
    rw [List.length_append]
    exact Nat.le_add_right _ _
  rw [Item.encoding, List.cons_append, readItem, if_pos htag, List.append_assoc,
    readLength_derLength_append hlen]
  simp only [Option.bind_some, if_pos hle, List.take_left, List.drop_left]

theorem readItem_encoding {item : Item} (htag : lowTag item.tag = true)
    (hlen : item.content.length < 2 ^ 31) : readItem item.encoding = some (item, []) := by
  have h := readItem_encoding_append htag hlen []
  rwa [List.append_nil] at h

theorem eq_of_encoding_isPrefix {item item' : Item} (htag : lowTag item.tag = true)
    (htag' : lowTag item'.tag = true) (hlen : item.content.length < 2 ^ 31)
    (hlen' : item'.content.length < 2 ^ 31) (h : item.encoding <+: item'.encoding) :
    item = item' := by
  obtain ⟨rest, hrest⟩ := h
  have hread := readItem_encoding_append htag hlen rest
  rw [hrest, readItem_encoding htag' hlen', Option.some.injEq, Prod.mk.injEq] at hread
  exact hread.1.symm

theorem eq_of_encoding_eq {item item' : Item} (htag : lowTag item.tag = true)
    (htag' : lowTag item'.tag = true) (hlen : item.content.length < 2 ^ 31)
    (hlen' : item'.content.length < 2 ^ 31) (h : item.encoding = item'.encoding) :
    item = item' :=
  eq_of_encoding_isPrefix htag htag' hlen hlen' (h ▸ List.prefix_rfl)

theorem eq_of_encoding_append_eq {item item' : Item} {rest rest' : List UInt8}
    (htag : lowTag item.tag = true) (htag' : lowTag item'.tag = true)
    (hsize : (item.encoding ++ rest).length < 2 ^ 31)
    (heq : item.encoding ++ rest = item'.encoding ++ rest') : item = item' ∧ rest = rest' := by
  have hlen := item.length_content_lt
  have hlen' := item'.length_content_lt
  have hsize' := heq ▸ hsize
  rw [List.length_append] at hsize hsize'
  have hread := readItem_encoding_append htag (by omega) rest
  rw [heq, readItem_encoding_append htag' (by omega) rest', Option.some.injEq,
    Prod.mk.injEq] at hread
  exact ⟨hread.1.symm, hread.2.symm⟩

theorem Item.encoding_append_ne_nil (item : Item) (rest : List UInt8) :
    item.encoding ++ rest ≠ [] :=
  List.append_ne_nil_of_left_ne_nil (List.cons_ne_nil _ _) rest

theorem readItems_flatMap {items : List Item} (htag : ∀ i ∈ items, lowTag i.tag = true)
    (hlen : ∀ i ∈ items, i.content.length < 2 ^ 31) {fuel : ℕ} (hfuel : items.length ≤ fuel) :
    readItems fuel (items.flatMap Item.encoding) = some items := by
  induction items generalizing fuel with
  | nil => cases fuel <;> rfl
  | cons item items ih =>
    rw [List.forall_mem_cons] at htag hlen
    cases fuel with
    | zero => exact absurd hfuel (Nat.not_succ_le_zero _)
    | succ fuel =>
      have hread := readItem_encoding_append htag.1 hlen.1 (items.flatMap Item.encoding)
      rw [List.flatMap_cons]
      rw [Item.encoding, List.cons_append] at hread ⊢
      rw [readItems, hread]
      simp only [Option.bind_some, ih htag.2 hlen.2 (Nat.le_of_succ_le_succ hfuel),
        Option.map_some]

theorem length_encoding_le_of_mem {item : Item} {items : List Item} (h : item ∈ items) :
    item.encoding.length ≤ (items.flatMap Item.encoding).length := by
  obtain ⟨before, after, rfl⟩ := List.append_of_mem h
  rw [List.flatMap_append, List.flatMap_cons, List.length_append, List.length_append]
  omega

theorem length_le_length_flatMap (items : List Item) :
    items.length ≤ (items.flatMap Item.encoding).length := by
  induction items with
  | nil => exact Nat.le_refl 0
  | cons item items ih =>
    rw [List.flatMap_cons, List.length_append, Item.encoding, List.length_cons, List.length_cons]
    omega

theorem splitItems_flatMap {items : List Item} (htag : ∀ i ∈ items, lowTag i.tag = true)
    (hlen : ∀ i ∈ items, i.content.length < 2 ^ 31) :
    splitItems (items.flatMap Item.encoding) = some items :=
  readItems_flatMap htag hlen (length_le_length_flatMap items)

end HieroCryptography.Foundation

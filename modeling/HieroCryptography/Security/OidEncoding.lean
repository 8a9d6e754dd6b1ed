import HieroCryptography.Security.OidPacking

namespace HieroCryptography.Security

open Rust Foundation

namespace OID

section Arcs

def ofArcs (arcs : List ℕ) : OID := ⟨[codeUnit '.'].intercalate (arcs.map decimal)⟩

/-- What has to be packed for the arcs: the first two are in one number. -/
def packedNumbers (a₁ a₂ : ℕ) (arcs : List ℕ) : List ℕ := (40 * a₁ + a₂) :: arcs

/-- The content of an object identifier: every number in base 128. -/
def content (a₁ a₂ : ℕ) (arcs : List ℕ) : List UInt8 := (packedNumbers a₁ a₂ arcs).flatMap base128

def decode (bytes : List UInt8) : Option (List ℕ) :=
  match readBase128 0 bytes with
  | some (v :: arcs) => some (min (v / 40) 2 :: (v - 40 * min (v / 40) 2) :: arcs)
  | _ => none

variable {a₁ a₂ : ℕ} {arcs : List ℕ}

theorem decode_content (h₁ : a₁ ≤ 2) (h₂ : a₁ = 2 ∨ a₂ ≤ 39) :
    decode (content a₁ a₂ arcs) = some (a₁ :: a₂ :: arcs) := by
  have hmin : min ((40 * a₁ + a₂) / 40) 2 = a₁ := by omega
  rw [decode, content, readBase128_flatMap, packedNumbers]
  simp only [hmin, Nat.add_sub_cancel_left]

theorem length_base128_le_decimal (n : ℕ) : (base128 n).length ≤ (decimal n).length := by
  obtain ⟨width, hwidth⟩ := Nat.exists_eq_succ_of_ne_zero
    (Nat.ne_of_gt (List.length_pos_of_ne_nil (decimal_ne_nil n)))
  have hlt := lt_pow_length_decimal n
  rw [hwidth] at hlt ⊢
  exact length_base128_le_iff.mpr (hlt.trans_le (Nat.pow_le_pow_left (by norm_num) _))

theorem length_base128_first_le (h₁ : a₁ ≤ 2) :
    (base128 (40 * a₁ + a₂)).length ≤ (decimal a₂).length + 1 := by
  have hlt := lt_pow_length_decimal a₂
  have hpow : 10 ^ ((decimal a₂).length + 1) ≤ 128 ^ ((decimal a₂).length + 1) :=
    Nat.pow_le_pow_left (by norm_num) _
  have hten : 10 ≤ 10 ^ (decimal a₂).length :=
    Nat.le_self_pow (Nat.ne_of_gt (List.length_pos_of_ne_nil (decimal_ne_nil a₂))) 10
  rw [length_base128_le_iff]
  rw [pow_succ 10] at hpow
  omega

theorem length_flatMap_base128_le (a : ℕ) (arcs : List ℕ) :
    (decimal a).length + (arcs.flatMap base128).length ≤
      ([codeUnit '.'].intercalate ((a :: arcs).map decimal)).length := by
  induction arcs generalizing a with
  | nil => simp
  | cons b arcs ih =>
    have hle := ih b
    have hb := length_base128_le_decimal b
    rw [List.map_cons] at hle
    rw [List.map_cons, List.map_cons, List.intercalate_cons_cons, List.flatMap_cons,
      List.length_append, List.length_append, List.length_append, List.length_singleton]
    omega

theorem length_content_le (h₁ : a₁ ≤ 2) :
    (content a₁ a₂ arcs).length ≤ (ofArcs (a₁ :: a₂ :: arcs)).oid.length := by
  have hfirst : (base128 (40 * a₁ + a₂)).length ≤ (decimal a₂).length + 1 :=
    length_base128_first_le h₁
  have hrest := length_flatMap_base128_le a₂ arcs
  rw [List.map_cons] at hrest
  rw [content, packedNumbers, ofArcs, List.map_cons, List.map_cons, List.intercalate_cons_cons,
    List.flatMap_cons, List.length_append, List.length_append, List.length_append,
    List.length_singleton]
  omega

theorem size_le_of_lt_pow {v k : ℕ} (h : v < 128 ^ k) : v.size ≤ 7 * k := by
  rw [Nat.size_le, pow_mul]
  exact h

theorem byteLength_le {v : ℕ} (h : (base128 v).length ≤ maximumOidSize) :
    byteLength v ≤ (2 ^ 31 - 1) / 8 := by
  have hlt : v < 128 ^ (4095 + 1) := length_base128_le_iff.mp h
  have hsize := size_le_of_lt_pow hlt
  rw [byteLength]
  omega

end Arcs

section Run

variable {s s' : Components} {size v : ℕ} {written : List UInt8} {values : List ℕ}

def packComponent (s : Components) (v : ℕ) : Outcome String Components := do
  let (tmp, packed) ← pack7Oid v s.tmp s.pos
  checkOidSize (s.pos + packed : ℕ)
  .ok ⟨tmp, s.pos + packed, s.first, s.count + 1⟩

theorem checkOidSize_ok_iff {n : ℕ} {u : Unit} : checkOidSize n = .ok u ↔ n ≤ maximumOidSize := by
  have hnonneg : (!decide ((n : ℤ) < 0)) = true := by simp
  rw [checkOidSize, hnonneg, require_true, ok_bind, require_ok_iff]
  simp

theorem packComponent_ok_iff : packComponent s v = .ok s' ↔
    (v = 0 ∨ byteLength v ≤ (2 ^ 31 - 1) / 8 ∧ ¬7 ∣ byteLength v) ∧
      pushAll s.tmp s.pos (packedBytes v) = .ok s'.tmp ∧
      s.pos + (packedBytes v).length = s'.pos ∧ s'.pos ≤ maximumOidSize ∧ s.first = s'.first ∧
      s.count + 1 = s'.count := by
  rw [packComponent, bind_ok_iff]
  constructor
  · rintro ⟨⟨tmp, packed⟩, hpack, h⟩
    obtain ⟨hfine, hpush, rfl⟩ := pack7Oid_ok_iff.mp hpack
    obtain ⟨u, hsize, h⟩ := bind_ok_iff.mp h
    obtain rfl := Except.ok.inj h
    exact ⟨hfine, hpush, rfl, checkOidSize_ok_iff.mp hsize, rfl, rfl⟩
  · rintro ⟨hfine, hpush, hpos, hsize, hfirst, hcount⟩
    refine ⟨(s'.tmp, (packedBytes v).length), pack7Oid_ok_iff.mpr ⟨hfine, hpush, rfl⟩, ?_⟩
    simp only [hpos]
    refine bind_ok_iff.mpr ⟨(), checkOidSize_ok_iff.mpr hsize, ?_⟩
    rw [hfirst, hcount]

theorem foldlM_packComponent_ok (hpacks : ∀ v ∈ values, Packs v)
    (h : Filled size written s.tmp s.pos) (hfits : s.pos + (values.flatMap base128).length ≤ size)
    (hmax : s.pos + (values.flatMap base128).length ≤ maximumOidSize) :
    ∃ s', values.foldlM packComponent s = .ok s' ∧ s'.count = s.count + values.length ∧
      Filled size (written ++ values.flatMap base128) s'.tmp s'.pos := by
  induction values generalizing s written with
  | nil => exact ⟨s, rfl, rfl, by simpa using h⟩
  | cons v values ih =>
    rw [List.forall_mem_cons] at hpacks
    rw [List.flatMap_cons, List.length_append] at hfits hmax
    have hbytes := hpacks.1.packedBytes
    have hroom : s.pos + (base128 v).length ≤ size := by omega
    obtain ⟨tmp, hpush, hfilled⟩ := h.pushAll_ok hroom
    have hfine : v = 0 ∨ byteLength v ≤ (2 ^ 31 - 1) / 8 ∧ ¬7 ∣ byteLength v :=
      Or.inr ⟨byteLength_le (by omega), hpacks.1.1⟩
    have hstep : packComponent s v =
        .ok ⟨tmp, s.pos + (base128 v).length, s.first, s.count + 1⟩ :=
      packComponent_ok_iff.mpr ⟨hfine, hbytes ▸ hpush, hbytes ▸ rfl, by simp only; omega, rfl, rfl⟩
    obtain ⟨s', hrest, hcount, hfilled'⟩ :=
      ih (s := ⟨tmp, _, s.first, s.count + 1⟩) hpacks.2 hfilled (by simp only; omega)
        (by simp only; omega)
    refine ⟨s', ?_, ?_, ?_⟩
    · rw [List.foldlM_cons, hstep, ok_bind, hrest]
    · simp only [hcount, List.length_cons]
      omega
    · rwa [List.append_assoc, ← List.flatMap_cons] at hfilled'

/-- Whatever the numbers are, the bytes that stand in the buffer at the end are known. -/
theorem of_foldlM_packComponent (hrun : values.foldlM packComponent s = .ok s')
    (h : Filled size written s.tmp s.pos) (hmax : s.pos ≤ maximumOidSize) :
    (∀ v ∈ values, v = 0 ∨ ¬7 ∣ byteLength v) ∧ s'.pos ≤ maximumOidSize ∧
      Filled size (written ++ values.flatMap packedBytes) s'.tmp s'.pos := by
  induction values generalizing s written with
  | nil =>
    obtain rfl := Except.ok.inj hrun
    exact ⟨nofun, hmax, by simpa using h⟩
  | cons v values ih =>
    rw [List.foldlM_cons] at hrun
    obtain ⟨s₁, hstep, hrest⟩ := bind_ok_iff.mp hrun
    obtain ⟨hfine, hpush, hpos, hsize, -, -⟩ := packComponent_ok_iff.mp hstep
    have hfilled := h.of_pushAll hpush
    rw [hpos] at hfilled
    obtain ⟨hvalues, hmax', hfilled'⟩ := ih hrest hfilled hsize
    rw [List.append_assoc, ← List.flatMap_cons] at hfilled'
    exact ⟨List.forall_mem_cons.mpr ⟨hfine.imp_right And.right, hvalues⟩, hmax', hfilled'⟩

end Run

section Emit

variable {s : Components} {a₁ a₂ : ℕ} {arcs : List ℕ}

theorem addComponent_first (h₁ : a₁ ≤ 2) (tmp : List UInt8) :
    addComponent ⟨tmp, 0, 0, 0⟩ (decimal a₁) = .ok ⟨tmp, 0, a₁, 1⟩ := by
  have hint : intValueExact a₁ = .ok (a₁ : ℤ) := by
    have hrange : (decide (-2 ^ 31 ≤ (a₁ : ℤ)) && decide ((a₁ : ℤ) < 2 ^ 31)) = true := by
      rw [Bool.and_eq_true, decide_eq_true_eq, decide_eq_true_eq]
      omega
    rw [intValueExact, hrange, require_true, ok_bind]
  have hfirst : checkFirstComponent a₁ = .ok () := by
    refine require_ok_iff.mpr ?_
    simp only [Bool.not_eq_true', Bool.or_eq_false_iff, decide_eq_false_iff_not]
    omega
  rw [addComponent, parseBigInteger_decimal, ok_bind, if_pos rfl, hint, ok_bind, hfirst]
  rfl

theorem addComponent_pack {v n : ℕ} (hcount : s.count ≠ 0) (h : packedNumber s n = .ok (v : ℤ)) :
    addComponent s (decimal n) = packComponent s v := by
  rw [addComponent, parseBigInteger_decimal, ok_bind, if_neg hcount, h]
  rfl

theorem packedNumber_second (h₂ : a₁ = 2 ∨ a₂ ≤ 39) (tmp : List UInt8) (pos : ℕ) :
    packedNumber ⟨tmp, pos, a₁, 1⟩ a₂ = .ok ((40 * a₁ + a₂ : ℕ) : ℤ) := by
  have hcheck : checkSecondComponent a₁ a₂ = .ok () := by
    refine require_ok_iff.mpr ?_
    simp
    omega
  have hsum : (a₂ : ℤ) + 40 * a₁ = ((40 * a₁ + a₂ : ℕ) : ℤ) := by
    push_cast
    ring
  rw [packedNumber, if_pos rfl, hcheck, ok_bind, hsum]

theorem packedNumber_other (hcount : 2 ≤ s.count) (n : ℕ) : packedNumber s n = .ok (n : ℤ) := by
  have hcheck : checkOtherComponent s.count n = .ok () := require_ok_iff.mpr (by simp)
  rw [packedNumber, if_neg (by omega), hcheck, ok_bind]

theorem foldlM_addComponent_rest (hcount : 2 ≤ s.count) :
    (arcs.map decimal).foldlM addComponent s = arcs.foldlM packComponent s := by
  induction arcs generalizing s with
  | nil => rfl
  | cons a arcs ih =>
    rw [List.map_cons, List.foldlM_cons, List.foldlM_cons,
      addComponent_pack (by omega) (packedNumber_other hcount a)]
    cases hstep : packComponent s a with
    | error e => rfl
    | ok s₁ =>
      obtain ⟨-, -, -, -, -, hcount'⟩ := packComponent_ok_iff.mp hstep
      exact ih (by omega)

/-- The loop over the components is a loop over the numbers to be packed. -/
theorem foldlM_addComponent (h₁ : a₁ ≤ 2) (h₂ : a₁ = 2 ∨ a₂ ≤ 39) (tmp : List UInt8) :
    ((a₁ :: a₂ :: arcs).map decimal).foldlM addComponent ⟨tmp, 0, 0, 0⟩ =
      (packedNumbers a₁ a₂ arcs).foldlM packComponent ⟨tmp, 0, a₁, 1⟩ := by
  rw [List.map_cons, List.map_cons, List.foldlM_cons, addComponent_first h₁, ok_bind,
    List.foldlM_cons, addComponent_pack one_ne_zero (packedNumber_second h₂ tmp 0), packedNumbers,
    List.foldlM_cons]
  cases hstep : packComponent ⟨tmp, 0, a₁, 1⟩ (40 * a₁ + a₂) with
  | error e => rfl
  | ok s₁ =>
    obtain ⟨-, -, -, -, -, hcount⟩ := packComponent_ok_iff.mp hstep
    exact foldlM_addComponent_rest (Nat.le_of_eq hcount)

theorem splitOn_ofArcs (a : ℕ) (arcs : List ℕ) :
    (ofArcs (a :: arcs)).oid.splitOn (codeUnit '.') = (a :: arcs).map decimal := by
  refine List.splitOn_intercalate _ (fun component h ↦ ?_) (List.cons_ne_nil _ _)
  obtain ⟨b, -, rfl⟩ := List.mem_map.mp h
  exact notMem_decimal (by decide) b

theorem filled_new (size : ℕ) : Filled size [] (List.replicate size 0) 0 :=
  ⟨List.length_replicate, rfl, rfl⟩

theorem Filled.contents_putSlice {size pos : ℕ} {content out : List UInt8}
    (h : Filled size content out pos) (hmax : pos ≤ maximumOidSize)
    (inside : 0 + pos ≤ out.length) :
    (DerWriter.putSlice DerWriter.tagObjectId out 0 pos inside).flatMap Write.contents =
      (Item.mk DerWriter.tagObjectId content).encoding := by
  have hitem : (Leaf.putSlice DerWriter.tagObjectId out 0 pos inside).item =
      ⟨DerWriter.tagObjectId, content⟩ := congrArg _ h.take_out
  have hlen : content.length < 2 ^ 31 := by
    rw [h.length_content]
    exact hmax.trans_lt (by norm_num [maximumOidSize])
  rw [← hitem]
  exact Leaf.contents_writes _ (by rwa [hitem])

theorem writes_ok_iff (h₁ : a₁ ≤ 2) (h₂ : a₁ = 2 ∨ a₂ ≤ 39)
    (hsize : (content a₁ a₂ arcs).length ≤ maximumOidSize) :
    (∃ calls, (ofArcs (a₁ :: a₂ :: arcs)).writes = .ok calls ∧ calls.flatMap Write.contents =
        (Item.mk DerWriter.tagObjectId (content a₁ a₂ arcs)).encoding) ↔
      ∀ v ∈ packedNumbers a₁ a₂ arcs, Packs v := by
  have hfilled := filled_new (ofArcs (a₁ :: a₂ :: arcs)).oid.length
  have hshort (n : ℕ) (h : n ≤ maximumOidSize) : n < 2 ^ 31 :=
    h.trans_lt (by norm_num [maximumOidSize])
  have htag : lowTag DerWriter.tagObjectId = true := by decide
  rw [writes, splitOn_ofArcs, foldlM_addComponent h₁ h₂]
  constructor
  · rintro ⟨calls, hcalls, hcontents⟩
    obtain ⟨s, hrun, hcalls⟩ := bind_ok_iff.mp hcalls
    obtain ⟨-, -, hcalls⟩ := bind_ok_iff.mp hcalls
    -- nothing was thrown, and numbers with wrong bits would show in the content
    obtain ⟨hvalues, hmax, hfilled'⟩ := of_foldlM_packComponent hrun hfilled (Nat.zero_le _)
    rw [List.nil_append] at hfilled'
    split at hcalls
    · next inside =>
      obtain rfl := Except.ok.inj hcalls
      rw [hfilled'.contents_putSlice hmax] at hcontents
      have hitem := eq_of_encoding_eq htag htag
        (hshort _ (hfilled'.length_content ▸ hmax)) (hshort _ hsize) hcontents
      have hbytes := (Item.mk.inj hitem).2
      rw [content, show packedBytes = _ from funext packedBytes_eq] at hbytes
      have hsome := forall_some_of_flatMap_base128 hbytes
      exact fun v hv ↦ packs_iff.mpr ⟨hvalues v hv, hsome v hv⟩
    · exact absurd hcalls (unwind_ne_ok calls)
  · intro hpacks
    obtain ⟨s, hrun, hcount, hfilled'⟩ := foldlM_packComponent_ok hpacks (s := ⟨_, 0, a₁, 1⟩)
      hfilled (by rw [Nat.zero_add]; exact length_content_le h₁) (by rwa [Nat.zero_add])
    have hcontent : (content a₁ a₂ arcs).length = s.pos := hfilled'.length_content
    have hinside : 0 + s.pos ≤ s.tmp.length := (Nat.zero_add s.pos).symm ▸ hfilled'.pos_le
    have hchecked : checkCount s.count = .ok () := by
      refine require_ok_iff.mpr ?_
      rw [hcount, packedNumbers, List.length_cons]
      simp
    refine ⟨_, ?_, hfilled'.contents_putSlice (hcontent ▸ hsize) hinside⟩
    rw [hrun, ok_bind, hchecked, ok_bind, dif_pos hinside]

end Emit

end OID

/-- An object identifier is written as it should be exactly when every number in it packs, and the
content is then read back as the arcs. Of the numbers of up to 105 bits those pack that have at most
47 bits, or 56 bits of which the first eight are set. -/
theorem oid_emit_iff_packs (a₁ a₂ : ℕ) (arcs : List ℕ) (h₁ : a₁ ≤ 2) (h₂ : a₁ = 2 ∨ a₂ ≤ 39)
    (hsize : (OID.content a₁ a₂ arcs).length ≤ 4096) :
    OID.decode (OID.content a₁ a₂ arcs) = some (a₁ :: a₂ :: arcs) ∧
    (∀ os : DerOutputStream, os.lengthsIndex = -1 →
      ((OID.ofArcs (a₁ :: a₂ :: arcs)).emit os = .ok { os with buf := os.buf ++
          (Item.mk DerWriter.tagObjectId (OID.content a₁ a₂ arcs)).encoding } ↔
        ∀ v ∈ OID.packedNumbers a₁ a₂ arcs, OID.Packs v)) ∧
    ∀ v < 2 ^ 105, (OID.Packs v ↔ v < 2 ^ 47 ∨ 2 ^ 56 - 2 ^ 48 ≤ v ∧ v < 2 ^ 56) := by
  refine ⟨OID.decode_content h₁ h₂, fun os hos ↦ ?_, fun v ↦ OID.packs_iff_of_lt⟩
  rw [← OID.writes_ok_iff h₁ h₂ hsize, OID.emit, bind_ok_iff]
  refine exists_congr fun calls ↦ and_congr_right fun _ ↦ ?_
  rw [DerOutputStream.foldlM_write_writing calls os hos]
  simp

theorem oid_emit_iff_packs_rsa :
    (OID.ofArcs [1, 2, 840, 113549, 1, 1, 12]).emit .new = .ok { DerOutputStream.new with
      buf := [0x06, 0x09, 0x2a, 0x86, 0x48, 0x86, 0xf7, 0x0d, 0x01, 0x01, 0x0c] } := by
  obtain ⟨-, hemit, hpacks⟩ := oid_emit_iff_packs 1 2 [840, 113549, 1, 1, 12] (by decide)
    (by decide) (by decide +kernel)
  have hbytes : [] ++ (Item.mk DerWriter.tagObjectId
      (OID.content 1 2 [840, 113549, 1, 1, 12])).encoding =
        [0x06, 0x09, 0x2a, 0x86, 0x48, 0x86, 0xf7, 0x0d, 0x01, 0x01, 0x0c] := by decide +kernel
  have hsmall : ∀ v ∈ OID.packedNumbers 1 2 [840, 113549, 1, 1, 12], v < 2 ^ 47 := by decide
  rw [← hbytes]
  refine (hemit .new rfl).mpr fun v hv ↦ ?_
  have hlt := hsmall v hv
  exact (hpacks v (hlt.trans (by norm_num))).mpr (Or.inl hlt)

/-- The seven bytes of an arc of 48 bits have no room for the ninth septet that the loop starts
with. -/
theorem oid_emit_throws :
    (OID.ofArcs [1, 2, 2 ^ 47]).oid = "1.2.140737488355328".toList.map codeUnit ∧
      (OID.content 1 2 [2 ^ 47]).length = 8 ∧
      (OID.ofArcs [1, 2, 2 ^ 47]).emit .new = unwind := by
  refine ⟨?_, ?_, ?_⟩ <;> decide +kernel

end HieroCryptography.Security

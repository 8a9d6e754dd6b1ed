import HieroCryptography.Foundation.Calendar
import HieroCryptography.Security.Oid

namespace HieroCryptography.Security

open Rust Foundation

structure Instant where
  seconds : ℤ
  nanos : Fin 1000000000
  deriving DecidableEq

namespace Instant

def ofEpochMilli (epochMilli : ℤ) : Instant :=
  ⟨epochMilli / 1000, Fin.ofNat _ ((epochMilli % 1000).toNat * 1000000)⟩

def isBefore (instant other : Instant) : Bool :=
  instant.seconds < other.seconds ||
    instant.seconds == other.seconds && instant.nanos < other.nanos

def civil (instant : Instant) : CivilTime := .ofEpochSecond instant.seconds

def year (instant : Instant) : ℤ := instant.civil.date.year

end Instant

section Formatter

/-- The letters of a pattern, and the literals between them. -/
inductive PatternField
  | yy
  | yyyy
  | MM
  | dd
  | HH
  | mm
  | ss
  | literal (c : Char)

/-- The years are counted from 1 in either direction. -/
def yearOfEra (year : ℤ) : ℕ := (if 1 ≤ year then year else 1 - year).toNat

def printPadded (width n : ℕ) : JavaString :=
  List.replicate (width - (decimal n).length) (codeUnit '0') ++ decimal n

/-- A year that does not fit its width has a sign. -/
def PatternField.print (time : CivilTime) : PatternField → JavaString
  | yy => printPadded 2 (yearOfEra time.date.year % 100)
  | yyyy =>
    (if 10 ^ 4 ≤ yearOfEra time.date.year then [codeUnit '+'] else []) ++
      printPadded 4 (yearOfEra time.date.year)
  | MM => printPadded 2 time.date.month
  | dd => printPadded 2 time.date.day
  | HH => printPadded 2 time.hour
  | mm => printPadded 2 time.minute
  | ss => printPadded 2 time.second
  | literal c => [codeUnit c]

/-- `DateTimeFormatter.ofPattern(pattern).withZone(UTC).format(instant)`. -/
def formatInstant (pattern : List PatternField) (instant : Instant) : JavaString :=
  pattern.flatMap (PatternField.print instant.civil)

/-- `getBytes(ISO_8859_1)` of a code unit, with a question mark for what cannot be mapped. -/
def latin1Byte (c : UInt16) : UInt8 := if c.toNat < 256 then UInt8.ofNat c.toNat else 0x3f

end Formatter

namespace DerWriter

def afterYear : List PatternField := [.MM, .dd, .HH, .mm, .ss, .literal 'Z']

def patternOfTag (tag : UInt8) : Outcome String (List PatternField) :=
  if tag = tagUtcTime then .ok (.yy :: afterYear)
  else if tag = tagGeneralizedTime then .ok (.yyyy :: afterYear)
  else fail ("Unsupported time tag: " ++ toString tag.toInt8.toInt)

def putInstant (tag : UInt8) (instant : Instant) : Outcome String Writes := do
  let pattern ← patternOfTag tag
  .ok (put tag ((formatInstant pattern instant).map latin1Byte))

end DerWriter

structure Interval where
  fromInstant : Instant
  toInstant : Instant

namespace Interval

def yr2050 : Instant := .ofEpochMilli 2524608000000

def timeTag (instant : Instant) : UInt8 :=
  if instant.isBefore yr2050 then DerWriter.tagUtcTime else DerWriter.tagGeneralizedTime

def emit (interval : Interval) (os : DerOutputStream) : Outcome String DerOutputStream := do
  let calls ← DerWriter.putInstant (timeTag interval.fromInstant) interval.fromInstant
  let os ← calls.foldlM DerOutputStream.write os
  let calls ← DerWriter.putInstant (timeTag interval.toInstant) interval.toInstant
  calls.foldlM DerOutputStream.write os

end Interval

section Decode

def readDigit (n : ℕ) (b : UInt8) : Option ℕ :=
  if 48 ≤ b.toNat ∧ b.toNat < 58 then some (10 * n + (b.toNat - 48)) else none

/-- Reads numbers of the given widths, with a `Z` after them and nothing else. -/
def readFields : List ℕ → List UInt8 → Option (List ℕ)
  | [], bytes => if bytes = [0x5a] then some [] else none
  | width :: widths, bytes =>
    if width ≤ bytes.length then
      ((bytes.take width).foldlM readDigit 0).bind fun value ↦
        (readFields widths (bytes.drop width)).map (value :: ·)
    else none

def secondOfFields (year : ℤ) (month day hour minute second : ℕ) : Option ℤ :=
  (CivilDate.ofFields year month day).bind fun date ↦
    if h : hour < 24 ∧ minute < 60 ∧ second < 60 then
      some (CivilTime.mk date ⟨hour, h.1⟩ ⟨minute, h.2.1⟩ ⟨second, h.2.2⟩).toEpochSecond
    else none

def fullYear (yy : ℕ) : ℤ := if 50 ≤ yy then 1900 + yy else 2000 + yy

/-- The time of a certificate: two digits of the year in the one form, and four in the other. -/
def decodeTime (item : Item) : Option ℤ :=
  if item.tag = DerWriter.tagUtcTime then
    match readFields [2, 2, 2, 2, 2, 2] item.content with
    | some [yy, month, day, hour, minute, second] =>
      secondOfFields (fullYear yy) month day hour minute second
    | _ => none
  else if item.tag = DerWriter.tagGeneralizedTime then
    match readFields [4, 2, 2, 2, 2, 2] item.content with
    | some [year, month, day, hour, minute, second] =>
      secondOfFields year month day hour minute second
    | _ => none
  else none

def decodeTimes (bytes : List UInt8) : Option (List ℤ) :=
  (splitItems bytes).bind fun items ↦ items.mapM decodeTime

/-- Some content with the tag of a UTC time stands for the second. -/
def UtcTimeRepresents (s : ℤ) : Prop :=
  ∃ content, decodeTime ⟨DerWriter.tagUtcTime, content⟩ = some s

end Decode

section Fields

variable {width n : ℕ} {rest : List UInt8}

theorem length_decimal_le (hwidth : 0 < width) (h : n < 10 ^ width) :
    (decimal n).length ≤ width := by
  rw [decimal, List.length_map, Nat.length_toDigits_le_iff (by norm_num) hwidth]
  exact h

theorem length_printPadded (hwidth : 0 < width) (h : n < 10 ^ width) :
    (printPadded width n).length = width := by
  have hle := length_decimal_le hwidth h
  rw [printPadded, List.length_append, List.length_replicate]
  omega

theorem readDigit_digitChar (m : ℕ) {d : ℕ} (h : d < 10) :
    readDigit m (latin1Byte (codeUnit d.digitChar)) = some (10 * m + d) := by
  have hbyte : (latin1Byte (codeUnit d.digitChar)).toNat = 48 + d := by
    rw [latin1Byte, (codeUnit_digitChar h).1, if_pos (by omega), UInt8.toNat_ofNat']
    omega
  rw [readDigit, hbyte, if_pos (by omega), Nat.add_sub_cancel_left]

theorem foldlM_readDigit_decimal (n : ℕ) :
    ((decimal n).map latin1Byte).foldlM readDigit 0 = some n := by
  induction n using decimal_induction with
  | digit n hn =>
    rw [decimal_of_lt hn, List.map_singleton, List.foldlM_cons, readDigit_digitChar 0 hn]
    simp
  | append n hn ih =>
    rw [decimal_of_le hn, List.map_append, List.foldlM_append, ih, List.map_singleton]
    simp only [Option.bind_eq_bind, Option.bind_some, List.foldlM_cons,
      readDigit_digitChar _ (Nat.mod_lt n (by norm_num : 0 < 10)), Nat.div_add_mod]
    rfl

theorem foldlM_readDigit_printPadded (width n : ℕ) :
    ((printPadded width n).map latin1Byte).foldlM readDigit 0 = some n := by
  have hzeros (k : ℕ) : ((List.replicate k (codeUnit '0')).map latin1Byte).foldlM readDigit 0 =
      some 0 := by
    induction k with
    | zero => rfl
    | succ k ih =>
      have hzero : readDigit 0 (latin1Byte (codeUnit '0')) = some 0 := by decide
      rw [List.replicate_succ, List.map_cons, List.foldlM_cons, hzero]
      exact ih
  rw [printPadded, List.map_append, List.foldlM_append, hzeros]
  exact foldlM_readDigit_decimal n

theorem readFields_printPadded {widths : List ℕ} (hwidth : 0 < width) (h : n < 10 ^ width) :
    readFields (width :: widths) ((printPadded width n).map latin1Byte ++ rest) =
      (readFields widths rest).map (n :: ·) := by
  have hlen : ((printPadded width n).map latin1Byte).length = width := by
    rw [List.length_map, length_printPadded hwidth h]
  rw [readFields, if_pos (by rw [List.length_append]; omega), List.take_left' hlen,
    List.drop_left' hlen, foldlM_readDigit_printPadded, Option.bind_some]

theorem lt_ten_pow_of_monthLength {leap : Bool} {month day : ℕ} (h : day ≤ monthLength leap month) :
    day < 10 ^ 2 := by
  have hle : monthLength leap month ≤ 31 := by
    unfold monthLength
    split <;> (try split) <;> omega
  omega

theorem length_afterYear (time : CivilTime) :
    (DerWriter.afterYear.flatMap (PatternField.print time)).length = 11 := by
  have hmonth := time.date.month_mem.2
  have hday := lt_ten_pow_of_monthLength time.date.day_mem.2
  have hhour := time.hour.isLt
  have hminute := time.minute.isLt
  have hsecond := time.second.isLt
  simp only [DerWriter.afterYear, List.flatMap_cons, List.flatMap_nil, PatternField.print,
    List.length_append, List.length_nil, List.length_singleton]
  rw [length_printPadded two_pos (by omega), length_printPadded two_pos hday,
    length_printPadded two_pos (by omega), length_printPadded two_pos (by omega),
    length_printPadded two_pos (by omega)]
  rfl

theorem readFields_tail (time : CivilTime) :
    readFields [2, 2, 2, 2, 2]
        ((DerWriter.afterYear.flatMap (PatternField.print time)).map latin1Byte) =
      some [time.date.month, time.date.day, time.hour, time.minute, time.second] := by
  have hmonth := time.date.month_mem.2
  have hday := lt_ten_pow_of_monthLength time.date.day_mem.2
  have hhour := time.hour.isLt
  have hminute := time.minute.isLt
  have hsecond := time.second.isLt
  have hz : ([codeUnit 'Z'].map latin1Byte) = [0x5a] := by decide
  simp only [DerWriter.afterYear, List.flatMap_cons, List.flatMap_nil, PatternField.print,
    List.map_append, List.append_nil, hz]
  rw [readFields_printPadded two_pos (by omega), readFields_printPadded two_pos hday,
    readFields_printPadded two_pos (by omega), readFields_printPadded two_pos (by omega),
    readFields_printPadded two_pos (by omega)]
  rfl

theorem secondOfFields_eq (time : CivilTime) :
    secondOfFields time.date.year time.date.month time.date.day time.hour time.minute time.second =
      some time.toEpochSecond := by
  rw [secondOfFields, CivilDate.ofFields_eq, Option.bind_some,
    dif_pos ⟨time.hour.isLt, time.minute.isLt, time.second.isLt⟩]

theorem year_of_secondOfFields {year s : ℤ} {month day hour minute second : ℕ}
    (h : secondOfFields year month day hour minute second = some s) :
    (CivilTime.ofEpochSecond s).date.year = year := by
  obtain ⟨date, hdate, h⟩ := Option.bind_eq_some_iff.mp h
  split at h
  · obtain rfl := Option.some.inj h
    rw [CivilTime.year_ofEpochSecond_toEpochSecond]
    exact CivilDate.year_ofFields hdate
  · cases h

end Fields

section Times

variable {instant : Instant}

def timeContent (yearField : PatternField) (instant : Instant) : List UInt8 :=
  (formatInstant (yearField :: DerWriter.afterYear) instant).map latin1Byte

theorem timeContent_eq (yearField : PatternField) (instant : Instant) :
    timeContent yearField instant = (yearField.print instant.civil).map latin1Byte ++
      (DerWriter.afterYear.flatMap (PatternField.print instant.civil)).map latin1Byte := by
  rw [timeContent, formatInstant, List.flatMap_cons, List.map_append]

theorem yearOfEra_of_pos {year : ℤ} (h : 1 ≤ year) : (yearOfEra year : ℤ) = year := by
  rw [yearOfEra, if_pos h]
  omega

theorem yearOfEra_lt (hyear : 1 ≤ instant.year ∧ instant.year ≤ 9999) :
    yearOfEra instant.civil.date.year < 10 ^ 4 := by
  have hera := yearOfEra_of_pos hyear.1
  change yearOfEra instant.year < 10 ^ 4
  omega

theorem secondOfFields_civil (instant : Instant) :
    secondOfFields instant.year instant.civil.date.month instant.civil.date.day
      instant.civil.hour instant.civil.minute instant.civil.second = some instant.seconds :=
  (secondOfFields_eq instant.civil).trans
    (congrArg some (CivilTime.toEpochSecond_ofEpochSecond instant.seconds))

theorem decodeTime_utc (instant : Instant) :
    decodeTime ⟨DerWriter.tagUtcTime, timeContent .yy instant⟩ =
      secondOfFields (fullYear (yearOfEra instant.year % 100)) instant.civil.date.month
        instant.civil.date.day instant.civil.hour instant.civil.minute instant.civil.second := by
  have hread : readFields [2, 2, 2, 2, 2, 2] (timeContent .yy instant) =
      some [yearOfEra instant.year % 100, instant.civil.date.month, instant.civil.date.day,
        instant.civil.hour, instant.civil.minute, instant.civil.second] := by
    have hlt : yearOfEra instant.civil.date.year % 100 < 10 ^ 2 := Nat.mod_lt _ (by norm_num)
    rw [timeContent_eq, PatternField.print, readFields_printPadded two_pos hlt, readFields_tail]
    rfl
  rw [decodeTime, if_pos rfl]
  simp only [hread]

theorem generalizedTime_ne_utcTime : DerWriter.tagGeneralizedTime ≠ DerWriter.tagUtcTime := by
  decide

theorem decodeTime_generalized (hyear : 1 ≤ instant.year ∧ instant.year ≤ 9999) :
    decodeTime ⟨DerWriter.tagGeneralizedTime, timeContent .yyyy instant⟩ =
      some instant.seconds := by
  have hlt := yearOfEra_lt hyear
  have hread : readFields [4, 2, 2, 2, 2, 2] (timeContent .yyyy instant) =
      some [yearOfEra instant.year, instant.civil.date.month, instant.civil.date.day,
        instant.civil.hour, instant.civil.minute, instant.civil.second] := by
    rw [timeContent_eq, PatternField.print, if_neg (by omega), List.nil_append,
      readFields_printPadded four_pos hlt, readFields_tail]
    rfl
  rw [decodeTime, if_neg generalizedTime_ne_utcTime, if_pos rfl]
  simp only [hread, yearOfEra_of_pos hyear.1]
  exact secondOfFields_civil instant

theorem fullYear_of_mem {year : ℤ} (h : 1950 ≤ year ∧ year ≤ 2049) :
    fullYear (yearOfEra year % 100) = year := by
  have hera : (yearOfEra year : ℤ) = year := yearOfEra_of_pos (by omega)
  rw [fullYear]
  split <;> omega

theorem decodeTime_utc_of_mem (h : 1950 ≤ instant.year ∧ instant.year ≤ 2049) :
    decodeTime ⟨DerWriter.tagUtcTime, timeContent .yy instant⟩ = some instant.seconds := by
  rw [decodeTime_utc, fullYear_of_mem h, secondOfFields_civil]

theorem lt_of_foldlM_readDigit {bytes : List UInt8} {n value : ℕ}
    (h : bytes.foldlM readDigit n = some value) : value < (n + 1) * 10 ^ bytes.length := by
  induction bytes generalizing n with
  | nil =>
    obtain rfl := Option.some.inj h
    simp
  | cons b bytes ih =>
    rw [List.foldlM_cons] at h
    obtain ⟨n', hdigit, hrest⟩ := Option.bind_eq_some_iff.mp h
    have hn' : n' + 1 ≤ (n + 1) * 10 := by
      unfold readDigit at hdigit
      split at hdigit
      · have := Option.some.inj hdigit
        omega
      · cases hdigit
    calc value < (n' + 1) * 10 ^ bytes.length := ih hrest
      _ ≤ (n + 1) * 10 * 10 ^ bytes.length := Nat.mul_le_mul_right _ hn'
      _ = (n + 1) * 10 ^ (b :: bytes).length := by rw [List.length_cons, pow_succ']; ring

theorem lt_of_readFields {width value : ℕ} {widths values : List ℕ} {bytes : List UInt8}
    (h : readFields (width :: widths) bytes = some (value :: values)) : value < 10 ^ width := by
  rw [readFields] at h
  split at h
  · next hlen =>
    obtain ⟨value', hread, h⟩ := Option.bind_eq_some_iff.mp h
    obtain ⟨values', -, h⟩ := Option.map_eq_some_iff.mp h
    obtain ⟨rfl, -⟩ := List.cons.inj h
    have hlt := lt_of_foldlM_readDigit hread
    rwa [List.length_take, Nat.min_eq_left hlen, Nat.zero_add, Nat.one_mul] at hlt
  · cases h

/-- Two digits are enough for a hundred years. -/
theorem utcTimeRepresents_iff {s : ℤ} : UtcTimeRepresents s ↔
    1950 ≤ (CivilTime.ofEpochSecond s).date.year ∧
      (CivilTime.ofEpochSecond s).date.year ≤ 2049 := by
  constructor
  · rintro ⟨content, h⟩
    rw [decodeTime, if_pos rfl] at h
    split at h
    · next yy month day hour minute second hread =>
      have hyy := lt_of_readFields hread
      rw [year_of_secondOfFields h, fullYear]
      split <;> omega
    · cases h
  · intro h
    have hdecode : decodeTime ⟨DerWriter.tagUtcTime, timeContent .yy ⟨s, 0⟩⟩ = some s :=
      decodeTime_utc_of_mem h
    exact ⟨_, hdecode⟩

namespace Interval

theorem isBefore_yr2050_iff : instant.isBefore yr2050 = true ↔ instant.year ≤ 2049 := by
  have hyear : (2050 : ℤ) ≤ instant.year ↔
      86400 * (daysBeforeYear 2050 - daysBeforeYear 1970) ≤ instant.seconds :=
    CivilTime.le_year_ofEpochSecond_iff
  have hstart : 86400 * (daysBeforeYear 2050 - daysBeforeYear 1970) = 2524608000 := by decide
  have hbefore : instant.isBefore yr2050 = true ↔ instant.seconds < 2524608000 := by
    simp [Instant.isBefore, yr2050, Instant.ofEpochMilli]
  rw [hbefore]
  omega

def timeItem (instant : Instant) : Item :=
  if instant.year ≤ 2049 then ⟨DerWriter.tagUtcTime, timeContent .yy instant⟩
  else ⟨DerWriter.tagGeneralizedTime, timeContent .yyyy instant⟩

theorem putInstant_timeTag (instant : Instant) :
    DerWriter.putInstant (timeTag instant) instant =
      .ok (DerWriter.put (timeItem instant).tag (timeItem instant).content) := by
  rw [timeTag, timeItem]
  by_cases h : instant.year ≤ 2049
  · rw [if_pos (isBefore_yr2050_iff.mpr h), if_pos h]
    rfl
  · rw [if_neg (mt isBefore_yr2050_iff.mp h), if_neg h]
    rfl

theorem tag_timeItem_iff : (timeItem instant).tag = DerWriter.tagUtcTime ↔ instant.year ≤ 2049 := by
  rw [timeItem]
  split
  · next h => exact iff_of_true rfl h
  · next h => exact iff_of_false generalizedTime_ne_utcTime h

theorem decodeTime_timeItem_iff (hyear : 1 ≤ instant.year ∧ instant.year ≤ 9999) :
    decodeTime (timeItem instant) = some instant.seconds ↔ 1950 ≤ instant.year := by
  rw [timeItem]
  split
  · next h =>
    -- two digits stand for years from 1950 on, whatever they were printed from
    refine ⟨fun hdecode ↦ ?_, fun hlow ↦ decodeTime_utc_of_mem ⟨hlow, h⟩⟩
    exact (utcTimeRepresents_iff.mp ⟨_, hdecode⟩).1
  · next h => exact iff_of_true (decodeTime_generalized hyear) (by omega)

theorem tag_timeItem_represents_iff :
    ((timeItem instant).tag = DerWriter.tagUtcTime ↔ UtcTimeRepresents instant.seconds) ↔
      1950 ≤ instant.year := by
  have hrepresents : UtcTimeRepresents instant.seconds ↔
      1950 ≤ instant.year ∧ instant.year ≤ 2049 := utcTimeRepresents_iff
  rw [tag_timeItem_iff, hrepresents]
  omega

theorem length_content_timeItem (hyear : 1 ≤ instant.year ∧ instant.year ≤ 9999) :
    (timeItem instant).content.length < 2 ^ 31 := by
  have hlt := yearOfEra_lt hyear
  have hshort : yearOfEra instant.civil.date.year % 100 < 10 ^ 2 := Nat.mod_lt _ (by norm_num)
  rw [timeItem]
  split
  · rw [timeContent_eq, List.length_append, List.length_map, List.length_map, length_afterYear,
      PatternField.print, length_printPadded two_pos hshort]
    norm_num
  · rw [timeContent_eq, List.length_append, List.length_map, List.length_map, length_afterYear,
      PatternField.print, if_neg (by omega), List.nil_append, length_printPadded four_pos hlt]
    norm_num

theorem lowTag_timeItem (instant : Instant) : lowTag (timeItem instant).tag = true := by
  have hutc : lowTag DerWriter.tagUtcTime = true := by decide
  have hgeneralized : lowTag DerWriter.tagGeneralizedTime = true := by decide
  rw [timeItem]
  split
  · exact hutc
  · exact hgeneralized

theorem emit_writing {interval : Interval}
    (hfrom : (timeItem interval.fromInstant).content.length < 2 ^ 31)
    (hto : (timeItem interval.toInstant).content.length < 2 ^ 31) (os : DerOutputStream)
    (h : os.lengthsIndex = -1) :
    interval.emit os = .ok { os with buf := os.buf ++
      ((timeItem interval.fromInstant).encoding ++ (timeItem interval.toInstant).encoding) } := by
  have hput (item : Item) (hlen : item.content.length < 2 ^ 31) :
      (DerWriter.put item.tag item.content).flatMap Write.contents = item.encoding :=
    Leaf.contents_writes (.put item.tag item.content) hlen
  have hwrite (item : Item) (hlen : item.content.length < 2 ^ 31) (os : DerOutputStream)
      (hos : os.lengthsIndex = -1) :
      (DerWriter.put item.tag item.content).foldlM DerOutputStream.write os =
        .ok { os with buf := os.buf ++ item.encoding } := by
    rw [DerOutputStream.foldlM_write_writing _ os hos, hput item hlen]
  have hsecond := hwrite _ hto
    { os with buf := os.buf ++ (timeItem interval.fromInstant).encoding } h
  rw [emit, putInstant_timeTag, ok_bind, hwrite _ hfrom os h, ok_bind, putInstant_timeTag, ok_bind,
    hsecond, List.append_assoc]

theorem splitItems_times {a b : Item} (ha : lowTag a.tag = true) (hb : lowTag b.tag = true)
    (hlen : a.content.length < 2 ^ 31) (hlen' : b.content.length < 2 ^ 31) :
    splitItems (a.encoding ++ b.encoding) = some [a, b] := by
  have hsplit : splitItems ([a, b].flatMap Item.encoding) = some [a, b] := splitItems_flatMap
    (List.forall_mem_cons.mpr ⟨ha, List.forall_mem_singleton.mpr hb⟩)
    (List.forall_mem_cons.mpr ⟨hlen, List.forall_mem_singleton.mpr hlen'⟩)
  rwa [List.flatMap_cons, List.flatMap_singleton] at hsplit

end Interval

theorem decodeTimes_pair {bytes : List UInt8} {a b : Item} {s t : ℤ}
    (h : splitItems bytes = some [a, b]) :
    decodeTimes bytes = some [s, t] ↔ decodeTime a = some s ∧ decodeTime b = some t := by
  rw [decodeTimes, h, Option.bind_some]
  generalize decodeTime = decode
  cases ha : decode a <;> cases hb : decode b <;> simp [ha, hb]

end Times

/-- The times of an interval are read back, and the form with two digits is used for what it can
stand for, exactly when no year is before 1950. -/
theorem interval_read_back_iff (interval : Interval)
    (hfrom : 1 ≤ interval.fromInstant.year ∧ interval.fromInstant.year ≤ 9999)
    (hto : 1 ≤ interval.toInstant.year ∧ interval.toInstant.year ≤ 9999) :
    ∃ a b : Item,
      (∀ os : DerOutputStream, os.lengthsIndex = -1 →
        interval.emit os = .ok { os with buf := os.buf ++ (a.encoding ++ b.encoding) }) ∧
      splitItems (a.encoding ++ b.encoding) = some [a, b] ∧
      ((decodeTimes (a.encoding ++ b.encoding) =
            some [interval.fromInstant.seconds, interval.toInstant.seconds] ∧
          (a.tag = DerWriter.tagUtcTime ↔ UtcTimeRepresents interval.fromInstant.seconds) ∧
          (b.tag = DerWriter.tagUtcTime ↔ UtcTimeRepresents interval.toInstant.seconds)) ↔
        1950 ≤ interval.fromInstant.year ∧ 1950 ≤ interval.toInstant.year) := by
  have hlen := Interval.length_content_timeItem hfrom
  have hlen' := Interval.length_content_timeItem hto
  have hsplit := Interval.splitItems_times (Interval.lowTag_timeItem interval.fromInstant)
    (Interval.lowTag_timeItem interval.toInstant) hlen hlen'
  refine ⟨_, _, Interval.emit_writing hlen hlen', hsplit, ?_⟩
  have hdecode : decodeTimes ((Interval.timeItem interval.fromInstant).encoding ++
        (Interval.timeItem interval.toInstant).encoding) =
      some [interval.fromInstant.seconds, interval.toInstant.seconds] ↔
      1950 ≤ interval.fromInstant.year ∧ 1950 ≤ interval.toInstant.year := by
    rw [← Interval.decodeTime_timeItem_iff hfrom, ← Interval.decodeTime_timeItem_iff hto,
      decodeTimes_pair hsplit]
  rw [hdecode, Interval.tag_timeItem_represents_iff, Interval.tag_timeItem_represents_iff]
  exact and_iff_left_of_imp id

/-- From the third of December 2007 to the 25th of February 2107. -/
def centuryInterval : Interval := ⟨⟨1196676930, 0⟩, ⟨4328055911, 0⟩⟩

theorem interval_read_back_iff_century :
    centuryInterval.fromInstant.year = 2007 ∧ centuryInterval.toInstant.year = 2107 ∧
      ∃ bytes, centuryInterval.emit .new = .ok ⟨bytes, none, -1⟩ ∧
        decodeTimes bytes = some [1196676930, 4328055911] := by
  have hfrom : centuryInterval.fromInstant.year = 2007 := by decide +kernel
  have hto : centuryInterval.toInstant.year = 2107 := by decide +kernel
  obtain ⟨a, b, hemit, -, hiff⟩ := interval_read_back_iff centuryInterval
    (hfrom ▸ by norm_num) (hto ▸ by norm_num)
  refine ⟨hfrom, hto, a.encoding ++ b.encoding, hemit .new rfl, ?_⟩
  exact (hiff.mpr ⟨hfrom ▸ by norm_num, hto ▸ by norm_num⟩).1

/-- The last second of 1949, which is written as the last second of 2049. -/
theorem interval_before_1950 :
    (Instant.mk (-631152001) 0).year = 1949 ∧
      ∃ bytes, (Interval.mk ⟨-631152001, 0⟩ ⟨1196676930, 0⟩).emit .new = .ok ⟨bytes, none, -1⟩ ∧
        decodeTimes bytes = some [2524607999, 1196676930] := by
  refine ⟨by decide +kernel, [0x17, 13, 0x34, 0x39, 0x31, 0x32, 0x33, 0x31, 0x32, 0x33, 0x35, 0x39,
    0x35, 0x39, 0x5a, 0x17, 13, 0x30, 0x37, 0x31, 0x32, 0x30, 0x33, 0x31, 0x30, 0x31, 0x35, 0x33,
    0x30, 0x5a], ?_, by decide +kernel⟩
  rfl

end HieroCryptography.Security

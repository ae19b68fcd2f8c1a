import AegonKV.LittleEndian
import Mathlib.Data.List.TakeWhile

/-!
# The names of the files in the titan directory

Blob files and manifests are named by their numbers, and CURRENT holds the name of a manifest and a
newline. `Recover` finds out from the names of the directory's children which of them to delete.
-/

namespace AegonKV.FileName
open LittleEndian

/-- `%06llu`. -/
def padded (number : UInt64) : List Char :=
  let digits := Nat.toDigits 10 number.toNat
  List.replicate (6 - digits.length) '0' ++ digits

def makeFileName (number : UInt64) (suffix : String) : List Char :=
  padded number ++ '.' :: suffix.toList

def blobFileName (number : UInt64) : List Char := makeFileName number "blob"

def tempPlainFileName (number : UInt64) : List Char := makeFileName number "dbtmp.plain"

def descriptorFileName (number : UInt64) : List Char := "MANIFEST-".toList ++ padded number

def currentFileName : List Char := "CURRENT".toList

/-- What `SetCurrentFile` writes. -/
def currentContents (number : UInt64) : Bytes :=
  (descriptorFileName number ++ ['\n']).map fun c => UInt8.ofNat c.toNat

def manifestName (contents : Bytes) : List Char :=
  contents.dropLast.map fun b => Char.ofNat b.toNat

inductive FileType
  | kWalFile | kDBLockFile | kTableFile | kDescriptorFile | kCurrentFile | kTempFile | kInfoLogFile
  | kMetaDatabase | kIdentityFile | kOptionsFile | kBlobFile
  deriving DecidableEq, Repr

/-- `ConsumeDecimalNumber` with the value and the digits read so far. -/
def consumeDecimalNumber : ℕ → ℕ → List Char → Option (ℕ × List Char)
  | v, digits, [] => if digits > 0 then some (v, []) else none
  | v, digits, c :: rest =>
    if '0' ≤ c ∧ c ≤ '9' then
      let delta := c.toNat - '0'.toNat
      let kMaxUint64 := 2 ^ 64 - 1
      if v > kMaxUint64 / 10 ∨ (v = kMaxUint64 / 10 ∧ delta > kMaxUint64 % 10) then none
      else consumeDecimalNumber (v * 10 + delta) (digits + 1) rest
    else if digits > 0 then some (v, c :: rest) else none

/-- The last branch of `ParseFileName`: a number with a suffix. -/
def parseNumbered (rest : List Char) : Option (UInt64 × FileType) :=
  let archived := "archive".toList.isPrefixOf rest
  if archived ∧ rest.length ≤ "archive".toList.length then none
  else
    let rest := if archived then rest.drop ("archive".toList.length + 1) else rest
    match consumeDecimalNumber 0 0 rest with
    | none => none
    | some (num, rest) =>
      if rest.length ≤ 1 ∨ rest.head? ≠ some '.' then none
      else
        let suffix := rest.tail
        if suffix = "log".toList then some (UInt64.ofNat num, .kWalFile)
        else if archived then none
        else if suffix = "sst".toList ∨ suffix = "ldb".toList then some (UInt64.ofNat num, .kTableFile)
        else if suffix = "blob".toList then some (UInt64.ofNat num, .kBlobFile)
        else if suffix = "dbtmp".toList then some (UInt64.ofNat num, .kTempFile)
        else none

/-- A slash at the beginning does not count. -/
def withoutSlash (fname : List Char) : List Char :=
  if fname.length > 1 ∧ fname.head? = some '/' then fname.tail else fname

/-- A number behind a prefix, and nothing else. -/
def parsePrefixed (start : String) (type : FileType) (rest : List Char) :
    Option (UInt64 × FileType) :=
  match consumeDecimalNumber 0 0 (rest.drop start.toList.length) with
  | some (num, []) => some (UInt64.ofNat num, type)
  | _ => none

def parseOptions (rest : List Char) : Option (UInt64 × FileType) :=
  let rest := rest.drop "OPTIONS-".toList.length
  let isTempFile := ".dbtmp".toList.isSuffixOf rest
  let rest := if isTempFile then rest.take (rest.length - ".dbtmp".toList.length) else rest
  (consumeDecimalNumber 0 0 rest).map fun p =>
    (UInt64.ofNat p.1, if isTempFile then .kTempFile else .kOptionsFile)

/-- `ParseFileName` with no prefix for info logs: the number and the type. -/
def parseFileName (fname : List Char) : Option (UInt64 × FileType) :=
  let rest := withoutSlash fname
  if rest = "IDENTITY".toList then some (0, .kIdentityFile)
  else if rest = "CURRENT".toList then some (0, .kCurrentFile)
  else if rest = "LOCK".toList then some (0, .kDBLockFile)
  else if "MANIFEST-".toList.isPrefixOf rest then parsePrefixed "MANIFEST-" .kDescriptorFile rest
  else if "METADB-".toList.isPrefixOf rest then parsePrefixed "METADB-" .kMetaDatabase rest
  else if "OPTIONS-".toList.isPrefixOf rest then parseOptions rest
  else parseNumbered rest

/-- The files that the loop at the end of `Recover` deletes. -/
def purges (aliveFiles : List UInt64) (fname : List Char) : Bool :=
  match parseFileName fname with
  | none => false
  | some (number, type) =>
    if number ∈ aliveFiles then false else type = .kBlobFile || type = .kDescriptorFile

/-! ## Decimal numbers -/

/-- The digits of a number, possibly behind zeros. -/
structure Spells (digits : List Char) (number : UInt64) : Prop where
  nonempty : digits ≠ []
  digit : ∀ c ∈ digits, c.isDigit = true
  value : Nat.ofDigitChars 10 digits 0 = number.toNat

theorem isDigit_iff {c : Char} : c.isDigit = true ↔ '0' ≤ c ∧ c ≤ '9' := by
  rw [Char.isDigit, Bool.and_eq_true, decide_eq_true_eq, decide_eq_true_eq]
  rfl

theorem toNat_of_isDigit {c : Char} (h : c.isDigit = true) : 48 ≤ c.toNat ∧ c.toNat ≤ 57 :=
  isDigit_iff.mp h

theorem le_ofDigitChars (v : ℕ) (ds : List Char) : v ≤ Nat.ofDigitChars 10 ds v := by
  induction ds generalizing v with
  | nil => rw [Nat.ofDigitChars_nil]
  | cons c ds ih =>
      rw [Nat.ofDigitChars_cons]
      exact le_trans (by omega) (ih _)

/-- All digits are read, and the overflow check lets exactly the numbers of 64 bits pass. -/
theorem consumeDecimalNumber_eq {v : ℕ} (hv : v < 2 ^ 64) (digits : ℕ) (cs : List Char) :
    consumeDecimalNumber v digits cs =
      if 0 < digits + (cs.takeWhile Char.isDigit).length ∧
          Nat.ofDigitChars 10 (cs.takeWhile Char.isDigit) v < 2 ^ 64 then
        some (Nat.ofDigitChars 10 (cs.takeWhile Char.isDigit) v, cs.dropWhile Char.isDigit)
      else none := by
  induction cs generalizing v digits with
  | nil =>
      have hend : consumeDecimalNumber v digits [] = if digits > 0 then some (v, []) else none := rfl
      rw [hend, List.takeWhile_nil, List.dropWhile_nil, Nat.ofDigitChars_nil]
      simp only [List.length_nil, Nat.add_zero, gt_iff_lt, hv, and_true]
  | cons c rest ih =>
      have hround : consumeDecimalNumber v digits (c :: rest) =
          if '0' ≤ c ∧ c ≤ '9' then
            if v > (2 ^ 64 - 1) / 10 ∨
                (v = (2 ^ 64 - 1) / 10 ∧ c.toNat - '0'.toNat > (2 ^ 64 - 1) % 10) then none
            else consumeDecimalNumber (v * 10 + (c.toNat - '0'.toNat)) (digits + 1) rest
          else if digits > 0 then some (v, c :: rest) else none := rfl
      rw [hround]
      by_cases hc : c.isDigit = true
      · obtain ⟨hle, hge⟩ := toNat_of_isDigit hc
        have hten : (10 * v + (c.toNat - '0'.toNat)) = v * 10 + (c.toNat - '0'.toNat) := by omega
        rw [if_pos (isDigit_iff.mp hc), List.takeWhile_cons_of_pos hc,
          List.dropWhile_cons_of_pos hc, Nat.ofDigitChars_cons, hten]
        have hzero : '0'.toNat = 48 := rfl
        by_cases hover : v > (2 ^ 64 - 1) / 10 ∨
            v = (2 ^ 64 - 1) / 10 ∧ c.toNat - '0'.toNat > (2 ^ 64 - 1) % 10
        · rw [if_pos hover, if_neg]
          rintro ⟨-, hlt⟩
          have hgrows := le_ofDigitChars (v * 10 + (c.toNat - '0'.toNat)) (rest.takeWhile Char.isDigit)
          omega
        · rw [if_neg hover, ih (by omega)]
          have hcount : 0 < digits + 1 + (rest.takeWhile Char.isDigit).length ↔
              0 < digits + (c :: rest.takeWhile Char.isDigit).length := by
            rw [List.length_cons]
            omega
          simp only [hcount]
      · rw [if_neg fun h => hc (isDigit_iff.mpr h), List.takeWhile_cons_of_neg hc,
          List.dropWhile_cons_of_neg hc, Nat.ofDigitChars_nil]
        simp only [List.length_nil, Nat.add_zero, gt_iff_lt, hv, and_true]

/-- What is read from the start of a name. -/
theorem consumeDecimalNumber_iff {cs rest : List Char} {num : ℕ} :
    consumeDecimalNumber 0 0 cs = some (num, rest) ↔
      ∃ digits number, Spells digits number ∧ cs = digits ++ rest ∧ num = number.toNat ∧
        ∀ c ∈ rest.head?, c.isDigit = false := by
  rw [consumeDecimalNumber_eq (by decide)]
  constructor
  · intro h
    split at h
    · rename_i hnumber
      obtain ⟨hcount, hlt⟩ := hnumber
      obtain ⟨rfl, rfl⟩ := Prod.mk.inj (Option.some.inj h)
      refine ⟨cs.takeWhile Char.isDigit, .ofNat (Nat.ofDigitChars 10 (cs.takeWhile Char.isDigit) 0),
        ⟨?_, fun c hc => List.mem_takeWhile_imp hc, ?_⟩,
        List.takeWhile_append_dropWhile.symm, ?_, fun c hc => ?_⟩
      · rw [Nat.zero_add] at hcount
        exact List.ne_nil_of_length_pos hcount
      · exact (UInt64.toNat_ofNat_of_lt' hlt).symm
      · exact (UInt64.toNat_ofNat_of_lt' hlt).symm
      · have hstop := List.head?_dropWhile_not Char.isDigit cs
        rw [hc] at hstop
        simpa using hstop
    · cases h
  · rintro ⟨digits, number, ⟨hne, hdigit, hvalue⟩, rfl, rfl, hstop⟩
    have htake : rest.takeWhile Char.isDigit = [] ∧ rest.dropWhile Char.isDigit = rest := by
      cases rest with
      | nil => exact ⟨rfl, rfl⟩
      | cons c rest =>
          have hc : ¬c.isDigit = true := by
            rw [hstop c rfl]
            exact Bool.false_ne_true
          exact ⟨List.takeWhile_cons_of_neg hc, List.dropWhile_cons_of_neg hc⟩
    rw [List.takeWhile_append_of_pos hdigit, List.dropWhile_append_of_pos hdigit, htake.1, htake.2,
      List.append_nil, hvalue, if_pos]
    refine ⟨?_, number.toNat_lt⟩
    have hpos := List.length_pos_iff.mpr hne
    omega

theorem Spells.unique {digits : List Char} {a b : UInt64} (ha : Spells digits a) (hb : Spells digits b) :
    a = b :=
  UInt64.toNat_inj.mp (ha.value.symm.trans hb.value)

theorem spells_padded (number : UInt64) : Spells (padded number) number := by
  refine ⟨fun hc => ?_, fun c hc => ?_, ?_⟩
  · exact Nat.toDigits_ne_nil (List.append_eq_nil_iff.mp hc).2
  · rcases List.mem_append.mp hc with hc | hc
    · obtain ⟨-, rfl⟩ := List.mem_replicate.mp hc
      decide
    · exact Nat.isDigit_of_mem_toDigits (by decide) (Nat.le_refl 10) hc
  · rw [padded, Nat.ofDigitChars_append, Nat.ofDigitChars_replicate_zero, Nat.mul_zero,
      Nat.ofDigitChars_ten_toDigits]

/-! ## What the names mean -/

theorem parsePrefixed_iff {start : String} {type : FileType} {rest : List Char} {number : UInt64}
    {type' : FileType} (hstart : start.toList.isPrefixOf rest = true) :
    parsePrefixed start type rest = some (number, type') ↔
      type' = type ∧ ∃ digits, Spells digits number ∧ rest = start.toList ++ digits := by
  obtain ⟨tail, rfl⟩ := List.isPrefixOf_iff_prefix.mp hstart
  rw [parsePrefixed, List.drop_left]
  constructor
  · intro h
    split at h
    · rename_i num hnum
      obtain ⟨digits, number', hspells, hcs, rfl, -⟩ := consumeDecimalNumber_iff.mp hnum
      obtain ⟨rfl, rfl⟩ := Prod.mk.inj (Option.some.inj h)
      rw [UInt64.ofNat_toNat, hcs, List.append_nil]
      exact ⟨rfl, digits, hspells, rfl⟩
    · cases h
  · rintro ⟨rfl, digits, hspells, hrest⟩
    obtain rfl := List.append_cancel_left hrest
    have hread : consumeDecimalNumber 0 0 tail = some (number.toNat, []) :=
      consumeDecimalNumber_iff.mpr ⟨tail, number, hspells, (List.append_nil _).symm, rfl,
        fun c hc => nomatch hc⟩
    rw [hread]
    dsimp only
    rw [UInt64.ofNat_toNat]

/-- No file of the numbered kinds is a manifest, and a blob file has its number and its suffix. -/
theorem parseNumbered_iff {rest : List Char} {number : UInt64} :
    parseNumbered rest ≠ some (number, .kDescriptorFile) ∧
      (parseNumbered rest = some (number, .kBlobFile) ↔
        ∃ digits, Spells digits number ∧ rest = digits ++ ".blob".toList) := by
  have harchive : ∀ digits u, Spells digits u → ∀ tail : List Char,
      "archive".toList.isPrefixOf (digits ++ tail) = false := by
    intro digits u hspells tail
    cases hdigits : digits with
    | nil => exact absurd hdigits hspells.nonempty
    | cons c digits =>
        have hc := hspells.digit c (hdigits ▸ List.mem_cons_self)
        have hne : ('a' == c) = false := by
          rw [beq_eq_false_iff_ne]
          rintro rfl
          exact Bool.noConfusion hc
        change (('a' == c) && _) = false
        rw [hne, Bool.false_and]
  refine ⟨fun h => ?_, fun h => ?_, ?_⟩
  · rw [parseNumbered] at h
    dsimp only at h
    repeat' split at h
    all_goals cases h
  · rw [parseNumbered] at h
    dsimp only at h
    split at h
    · cases h
    split at h
    · cases h
    rename_i num tail hread
    split at h
    · cases h
    rename_i hdot
    rw [not_or, not_not] at hdot
    split at h
    · cases h
    split at h
    · cases h
    rename_i hnot
    rw [if_neg hnot] at hread
    split at h
    · cases h
    split at h
    · rename_i hblob
      obtain ⟨digits, number', hspells, hcs, rfl, -⟩ := consumeDecimalNumber_iff.mp hread
      obtain ⟨rfl, -⟩ := Prod.mk.inj (Option.some.inj h)
      rw [UInt64.ofNat_toNat]
      refine ⟨digits, hspells, hcs.trans (congrArg (digits ++ ·) ?_)⟩
      cases tail with
      | nil => cases hdot.2
      | cons c tail =>
          obtain rfl := Option.some.inj hdot.2
          rw [List.tail_cons] at hblob
          rw [hblob]
          rfl
    · split at h <;> cases h
  · rintro ⟨digits, hspells, rfl⟩
    have hread : consumeDecimalNumber 0 0 (digits ++ ".blob".toList) =
        some (number.toNat, ".blob".toList) := by
      refine consumeDecimalNumber_iff.mpr ⟨digits, number, hspells, rfl, rfl, fun c hc => ?_⟩
      obtain rfl := Option.some.inj hc
      rfl
    rw [parseNumbered]
    dsimp only
    rw [harchive digits number hspells, if_neg (fun hc => Bool.false_ne_true hc.1),
      if_neg Bool.false_ne_true, hread]
    simp only [UInt64.ofNat_toNat]
    rfl

theorem startsWithDigit {digits tail : List Char} {number : UInt64} (h : Spells digits number)
    {c : Char} {cs : List Char} (hc : c.isDigit = false) : digits ++ tail ≠ c :: cs := by
  intro heq
  cases hdigits : digits with
  | nil => exact h.nonempty hdigits
  | cons d digits =>
      rw [hdigits, List.cons_append] at heq
      have hd := h.digit d (hdigits ▸ List.mem_cons_self)
      rw [(List.cons.inj heq).1, hc] at hd
      cases hd

/-- The names of manifests and of blob files, all others being something else or nothing. -/
theorem parseFileName_iff {fname : List Char} {number : UInt64} :
    (parseFileName fname = some (number, .kDescriptorFile) ↔
      ∃ digits, Spells digits number ∧ withoutSlash fname = "MANIFEST-".toList ++ digits) ∧
    (parseFileName fname = some (number, .kBlobFile) ↔
      ∃ digits, Spells digits number ∧ withoutSlash fname = digits ++ ".blob".toList) := by
  rw [parseFileName]
  generalize withoutSlash fname = rest
  -- a name that is known by its first letter is no number with a suffix
  have hletter : ∀ {c : Char} {cs : List Char}, c.isDigit = false → rest = c :: cs →
      ¬∃ digits, Spells digits number ∧ rest = digits ++ ".blob".toList := by
    rintro c cs hc hrest ⟨digits, hspells, heq⟩
    exact startsWithDigit hspells hc (heq.symm.trans hrest)
  have hstarts : ∀ {start : String}, start.toList.isPrefixOf rest = true →
      ∃ tail, rest = start.toList ++ tail := by
    intro start hstart
    obtain ⟨tail, htail⟩ := List.isPrefixOf_iff_prefix.mp hstart
    exact ⟨tail, htail.symm⟩
  by_cases hidentity : rest = "IDENTITY".toList
  · rw [if_pos hidentity]
    refine ⟨iff_of_false (fun hc => nomatch hc) ?_, iff_of_false (fun hc => nomatch hc) ?_⟩
    · rintro ⟨digits, -, hrest⟩
      cases hidentity.symm.trans hrest
    · exact hletter rfl hidentity
  rw [if_neg hidentity]
  by_cases hcurrent : rest = "CURRENT".toList
  · rw [if_pos hcurrent]
    refine ⟨iff_of_false (fun hc => nomatch hc) ?_, iff_of_false (fun hc => nomatch hc) ?_⟩
    · rintro ⟨digits, -, hrest⟩
      cases hcurrent.symm.trans hrest
    · exact hletter rfl hcurrent
  rw [if_neg hcurrent]
  by_cases hlock : rest = "LOCK".toList
  · rw [if_pos hlock]
    refine ⟨iff_of_false (fun hc => nomatch hc) ?_, iff_of_false (fun hc => nomatch hc) ?_⟩
    · rintro ⟨digits, -, hrest⟩
      cases hlock.symm.trans hrest
    · exact hletter rfl hlock
  rw [if_neg hlock]
  by_cases hmanifest : "MANIFEST-".toList.isPrefixOf rest = true
  · rw [if_pos hmanifest, parsePrefixed_iff hmanifest, parsePrefixed_iff hmanifest]
    obtain ⟨tail, htail⟩ := hstarts hmanifest
    exact ⟨and_iff_right rfl, iff_of_false (fun hc => nomatch hc.1) (hletter rfl htail)⟩
  rw [if_neg hmanifest]
  have hno : ¬∃ digits, Spells digits number ∧ rest = "MANIFEST-".toList ++ digits := by
    rintro ⟨digits, -, hrest⟩
    exact hmanifest (List.isPrefixOf_iff_prefix.mpr ⟨digits, hrest.symm⟩)
  by_cases hmetadb : "METADB-".toList.isPrefixOf rest = true
  · rw [if_pos hmetadb, parsePrefixed_iff hmetadb, parsePrefixed_iff hmetadb]
    obtain ⟨tail, htail⟩ := hstarts hmetadb
    exact ⟨iff_of_false (fun hc => nomatch hc.1) hno,
      iff_of_false (fun hc => nomatch hc.1) (hletter rfl htail)⟩
  rw [if_neg hmetadb]
  by_cases hoptions : "OPTIONS-".toList.isPrefixOf rest = true
  · rw [if_pos hoptions]
    obtain ⟨tail, htail⟩ := hstarts hoptions
    have htype : ∀ type, parseOptions rest = some (number, type) →
        type = .kTempFile ∨ type = .kOptionsFile := by
      intro type h
      rw [parseOptions] at h
      obtain ⟨p, -, hp⟩ := Option.map_eq_some_iff.mp h
      obtain ⟨-, rfl⟩ := Prod.mk.inj hp
      split
      · exact Or.inl rfl
      · exact Or.inr rfl
    refine ⟨iff_of_false (fun hc => ?_) hno, iff_of_false (fun hc => ?_) (hletter rfl htail)⟩
    · rcases htype _ hc with h | h <;> cases h
    · rcases htype _ hc with h | h <;> cases h
  rw [if_neg hoptions]
  exact ⟨iff_of_false parseNumbered_iff.1 hno, parseNumbered_iff.2⟩

theorem Spells.withoutSlash {digits : List Char} {number : UInt64} (h : Spells digits number)
    (tail : List Char) : withoutSlash (digits ++ tail) = digits ++ tail := by
  refine if_neg fun hc => ?_
  cases hcs : digits ++ tail with
  | nil =>
      rw [hcs] at hc
      cases hc.2
  | cons c cs =>
      rw [hcs] at hc
      obtain rfl := Option.some.inj hc.2
      exact startsWithDigit h rfl hcs

@[simp] theorem parse_blobFileName (number : UInt64) :
    parseFileName (blobFileName number) = some (number, .kBlobFile) :=
  parseFileName_iff.2.mpr
    ⟨padded number, spells_padded number, (spells_padded number).withoutSlash _⟩

@[simp] theorem parse_descriptorFileName (number : UInt64) :
    parseFileName (descriptorFileName number) = some (number, .kDescriptorFile) :=
  parseFileName_iff.1.mpr ⟨padded number, spells_padded number, if_neg fun hc => nomatch hc.2⟩

@[simp] theorem descriptorFileName_inj {a b : UInt64} :
    descriptorFileName a = descriptorFileName b ↔ a = b := by
  refine ⟨fun h => ?_, congrArg _⟩
  have hparse := congrArg parseFileName h
  rw [parse_descriptorFileName, parse_descriptorFileName] at hparse
  exact congrArg Prod.fst (Option.some.inj hparse)

@[simp] theorem descriptorFileName_ne_current (number : UInt64) :
    descriptorFileName number ≠ currentFileName := fun hc => nomatch List.cons.inj hc

@[simp] theorem descriptorFileName_ne_temp (a b : UInt64) :
    descriptorFileName a ≠ tempPlainFileName b :=
  fun hc => startsWithDigit (spells_padded b) rfl hc.symm

@[simp] theorem currentFileName_ne_temp (number : UInt64) :
    currentFileName ≠ tempPlainFileName number :=
  fun hc => startsWithDigit (spells_padded number) rfl hc.symm

/-- What `Recover` finds in CURRENT is the name that `SetCurrentFile` has put there. -/
theorem manifestName_currentContents (number : UInt64) :
    (currentContents number).getLast? = some 10 ∧
      manifestName (currentContents number) = descriptorFileName number := by
  have hascii : ∀ c ∈ descriptorFileName number, Char.ofNat (UInt8.ofNat c.toNat).toNat = c := by
    intro c hc
    have hlt : c.toNat < 256 := by
      have hstart : ("MANIFEST-".toList.all fun c => c.toNat < 256) = true := rfl
      rcases List.mem_append.mp hc with hc | hc
      · exact of_decide_eq_true (List.all_eq_true.mp hstart c hc)
      · obtain ⟨-, hle⟩ := toNat_of_isDigit ((spells_padded number).digit c hc)
        omega
    rw [UInt8.toNat_ofNat_of_lt' hlt, Char.ofNat_toNat]
  rw [manifestName, currentContents, List.map_append, List.map_singleton]
  refine ⟨List.getLast?_concat, ?_⟩
  rw [List.dropLast_concat, List.map_map]
  calc (descriptorFileName number).map _
      = (descriptorFileName number).map id := List.map_congr_left hascii
    _ = descriptorFileName number := List.map_id _

/-- Exactly the blob files and manifests whose numbers are not in use are deleted. -/
theorem purges_iff (aliveFiles : List UInt64) (fname : List Char) :
    purges aliveFiles fname = true ↔ ∃ digits number, Spells digits number ∧ number ∉ aliveFiles ∧
      (withoutSlash fname = digits ++ ".blob".toList ∨
        withoutSlash fname = "MANIFEST-".toList ++ digits) := by
  constructor
  · intro h
    rw [purges] at h
    split at h
    · cases h
    rename_i number type hparse
    split at h
    · cases h
    rename_i hdead
    rw [Bool.or_eq_true, decide_eq_true_eq, decide_eq_true_eq] at h
    rcases h with rfl | rfl
    · obtain ⟨digits, hspells, hname⟩ := parseFileName_iff.2.mp hparse
      exact ⟨digits, number, hspells, hdead, Or.inl hname⟩
    · obtain ⟨digits, hspells, hname⟩ := parseFileName_iff.1.mp hparse
      exact ⟨digits, number, hspells, hdead, Or.inr hname⟩
  · rintro ⟨digits, number, hspells, hdead, hname | hname⟩
    · have hparse := parseFileName_iff.2.mpr ⟨digits, hspells, hname⟩
      rw [purges, hparse]
      dsimp only
      rw [if_neg hdead]
      rfl
    · have hparse := parseFileName_iff.1.mpr ⟨digits, hspells, hname⟩
      rw [purges, hparse]
      dsimp only
      rw [if_neg hdead]
      rfl

end AegonKV.FileName

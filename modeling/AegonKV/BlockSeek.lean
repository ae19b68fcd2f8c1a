import AegonKV.BlobFormat

/-!
# A search in a block of the base DB

A block ends with its restart points and their number. The iterator finds the last restart point
whose key does not lie behind the target, by bisection, and walks on from there. It checks little:
where it would read behind the block, the functions here answer as for a bad entry.
-/

namespace AegonKV
open LittleEndian

/-- What the constructor of a block finds out: `size_`, which is 0 for a bad block,
`restart_offset_` and `num_restarts_`. -/
structure BlockLayout where
  size : ℕ
  restarts : UInt32
  numRestarts : UInt32

def kMaxBlockSizeSupportedByHashIndex : ℕ := 1 <<< 16

def blockLayout (data : Bytes) : BlockLayout :=
  if data.length < 4 then ⟨0, 0, 0⟩
  else
    let footer := UInt32.ofNat (leNat (data.drop (data.length - 4)))
    let large := decide (data.length > kMaxBlockSizeSupportedByHashIndex)
    let numRestarts := if large then footer else footer &&& 0x7fffffff
    if large ∨ footer &&& 0x80000000 = 0 then
      let restarts := UInt32.ofNat data.length - (1 + numRestarts) * 4
      ⟨if restarts.toNat > data.length - 4 then 0 else data.length, restarts, numRestarts⟩
    else if data.length < 4 + 2 then ⟨0, 0, numRestarts⟩
    else
      -- The hash index lies between the restart points and the footer.
      let numBuckets := UInt16.ofNat (leNat ((data.drop (data.length - 4 - 2)).take 2))
      let mapOffset := UInt16.ofNat (data.length - 4) - 2 - numBuckets
      let restarts := mapOffset.toUInt32 - numRestarts * 4
      ⟨if restarts > mapOffset.toUInt32 then 0 else data.length, restarts, numRestarts⟩

def badEntry : Status := .corruption "bad entry in block"

def bytesAt (data : Bytes) (p n : ℕ) : Except Status Bytes :=
  if p + n ≤ data.length then .ok ((data.drop p).take n) else .error badEntry

def BlockLayout.getRestartPoint (b : BlockLayout) (data : Bytes) (index : ℕ) : Except Status ℕ :=
  (bytesAt data (b.restarts.toNat + index * 4) 4).map leNat

/-- `DecodeEntry`: the three lengths, and the offset behind them. -/
def decodeEntry (data : Bytes) (limit p : ℕ) : Except Status (UInt32 × UInt32 × UInt32 × ℕ) := do
  let lengths ← bytesAt data p 3
  let shared := lengths.getD 0 0
  let nonShared := lengths.getD 1 0
  let valueLength := lengths.getD 2 0
  if shared ||| nonShared ||| valueLength < 128 then
    return (shared.toUInt32, nonShared.toUInt32, valueLength.toUInt32, p + 3)
  else
    match (do
      let (shared, rest) ← getVarint32 ((data.take limit).drop p)
      let (nonShared, rest) ← getVarint32 rest
      let (valueLength, rest) ← getVarint32 rest
      return (shared, nonShared, valueLength, limit - rest.length) :
        Option (UInt32 × UInt32 × UInt32 × ℕ)) with
    | none => throw badEntry
    | some entry => return entry

/-- The comparison of internal keys: by user key, and the larger sequence and type first. -/
def compareCurrentKey (key target : Bytes) : Except Status Ordering :=
  if key.length < 8 then .error badEntry
  else
    .ok ((compare (key.take (key.length - 8)) (target.take (target.length - 8))).then
      (compare (leNat (target.drop (target.length - 8))) (leNat (key.drop (key.length - 8)))))

/-- The loop of `BinarySeek`: the index of a restart point, and `skip_linear_scan`. -/
def binarySeek (data : Bytes) (b : BlockLayout) (target : Bytes) (left right : ℤ) :
    Except Status (ℕ × Bool) :=
  if left < right then do
    let mid := left + (right - left + 1) / 2
    let offset ← b.getRestartPoint data mid.toNat
    let (shared, nonShared, _, p) ← decodeEntry data b.restarts.toNat offset
    if shared ≠ 0 then throw badEntry
    let key ← bytesAt data p nonShared.toNat
    let cmp ← compareCurrentKey key target
    match cmp with
    | .lt => binarySeek data b target mid right
    | .gt => binarySeek data b target left (mid - 1)
    | .eq => return (mid.toNat, true)
  else return if left = -1 then (0, true) else (left.toNat, false)
termination_by (right - left).toNat

structure BlockEntry where
  current : ℕ
  key : Bytes
  value : Bytes
  next : ℕ

/-- `ParseNextKey`, `none` behind the last entry. -/
def parseNextKey (data : Bytes) (restarts : ℕ) (rawKey : Bytes) (current : ℕ) :
    Except Status (Option BlockEntry) :=
  if restarts ≤ current then .ok none
  else do
    let (shared, nonShared, valueLength, p) ← decodeEntry data restarts current
    if rawKey.length < shared.toNat then throw badEntry
    let key ← bytesAt data p nonShared.toNat
    let value ← bytesAt data (p + nonShared.toNat) valueLength.toNat
    return some ⟨current, rawKey.take shared.toNat ++ key, value,
      p + nonShared.toNat + valueLength.toNat⟩

/-- The linear search of `FindKeyAfterBinarySeek`, with one unit of fuel an entry. -/
def linearScan (data : Bytes) (restarts : ℕ) (target : Bytes) (maxOffset : ℕ) :
    ℕ → BlockEntry → Except Status (Option BlockEntry)
  | 0, _ => .ok none
  | fuel + 1, entry => do
    match ← parseNextKey data restarts entry.key entry.next with
    | none => return none
    | some entry =>
      if entry.current = maxOffset then return some entry
      else
        let cmp ← compareCurrentKey entry.key target
        if cmp = .lt then linearScan data restarts target maxOffset fuel entry else return some entry

def findKeyAfterBinarySeek (data : Bytes) (b : BlockLayout) (target : Bytes) (index : ℕ)
    (skipLinearScan : Bool) : Except Status (Option BlockEntry) := do
  let offset ← b.getRestartPoint data index
  match ← parseNextKey data b.restarts.toNat [] offset with
  | none => return none
  | some entry =>
    if skipLinearScan then return some entry
    else
      let maxOffset ← if index + 1 < b.numRestarts.toNat then b.getRestartPoint data (index + 1)
        else .ok (2 ^ 32 - 1)
      -- Every entry has at least three bytes, so that the fuel lasts.
      linearScan data b.restarts.toNat target maxOffset data.length entry

/-- `NewDataIterator` and `Seek`. -/
def seekInBlock (data target : Bytes) : Except Status (Option BlockEntry) := do
  let b := blockLayout data
  if b.size < 8 then throw (.corruption "bad block contents")
  if b.numRestarts = 0 ∨ b.restarts = 0 then return none
  let (index, skipLinearScan) ← binarySeek data b target (-1) (b.numRestarts.toNat - 1)
  findKeyAfterBinarySeek data b target index skipLinearScan

/-! ## A block with one entry -/

/-- `BlockBuilder::Add` of a key that shares nothing with the one before. -/
def blockEntry (key value : Bytes) : Bytes :=
  putVarint32 0 ++ putVarint32 (UInt32.ofNat key.length) ++ putVarint32 (UInt32.ofNat value.length) ++
    key ++ value

/-- `BlockBuilder::Finish` after one `Add`: the entry, its restart point and their number. -/
def oneEntryBlock (key value : Bytes) : Bytes := blockEntry key value ++ putFixed32 0 ++ putFixed32 1

theorem bytesAt_of_append (front back : Bytes) {data mid : Bytes} {p n : ℕ}
    (hdata : data = front ++ (mid ++ back))
    (hp : p = front.length) (hn : n = mid.length) : bytesAt data p n = .ok mid := by
  subst hdata hp hn
  rw [bytesAt, if_pos (by simp), List.drop_left, List.take_left]

theorem putVarint32_small {n : ℕ} (h : n < 128) : putVarint32 (UInt32.ofNat n) = [UInt8.ofNat n] := by
  have hn : (UInt32.ofNat n).toNat = n := by
    rw [UInt32.toNat_ofNat', Nat.mod_eq_of_lt (by omega)]
  rw [putVarint32, hn, encodeVarint32]
  exact if_pos h

section

variable {key value : Bytes}

theorem oneEntryBlock_eq (hk : key.length < 128) (hv : value.length < 128) :
    oneEntryBlock key value =
      [0, UInt8.ofNat key.length, UInt8.ofNat value.length] ++
        (key ++ (value ++ (putFixed32 0 ++ putFixed32 1))) := by
  have hzero : putVarint32 0 = [0] := putVarint32_small (n := 0) (by decide)
  rw [oneEntryBlock, blockEntry, hzero, putVarint32_small hk, putVarint32_small hv]
  simp only [List.append_assoc, List.cons_append, List.nil_append]

theorem length_oneEntryBlock (hk : key.length < 128) (hv : value.length < 128) :
    (oneEntryBlock key value).length = 3 + key.length + value.length + 8 := by
  rw [oneEntryBlock_eq hk hv]
  simp only [List.length_append, putFixed32, length_leBytes, List.length_cons, List.length_nil]
  omega

theorem blockLayout_oneEntryBlock (hk : key.length < 128) (hv : value.length < 128) :
    blockLayout (oneEntryBlock key value) =
      ⟨3 + key.length + value.length + 8, UInt32.ofNat (3 + key.length + value.length), 1⟩ := by
  have hlen := length_oneEntryBlock hk hv
  have hfooter : leNat ((oneEntryBlock key value).drop ((oneEntryBlock key value).length - 4)) = 1 := by
    rw [hlen, oneEntryBlock, List.drop_left']
    · rfl
    · simp only [List.length_append, putFixed32, length_leBytes] at hlen ⊢
      have htotal := hlen
      rw [oneEntryBlock] at htotal
      simp only [List.length_append, putFixed32, length_leBytes] at htotal
      omega
  have hrestarts : UInt32.ofNat (3 + key.length + value.length + 8) - (1 + 1) * 4 =
      UInt32.ofNat (3 + key.length + value.length) := by
    rw [UInt32.ofNat_add]
    simp
  have hsmall : ¬ 3 + key.length + value.length + 8 > kMaxBlockSizeSupportedByHashIndex := by
    have hmax : kMaxBlockSizeSupportedByHashIndex = 65536 := rfl
    omega
  have htoNat : (UInt32.ofNat (3 + key.length + value.length)).toNat = 3 + key.length + value.length := by
    rw [UInt32.toNat_ofNat', Nat.mod_eq_of_lt (by omega)]
  rw [blockLayout, if_neg (by omega), hfooter]
  simp only [hlen, decide_eq_false hsmall, Bool.false_eq_true, if_false]
  have hone : UInt32.ofNat 1 &&& 0x7fffffff = 1 := by decide
  have hmsb : UInt32.ofNat 1 &&& 0x80000000 = 0 := by decide
  rw [hone, hmsb, if_pos (Or.inr rfl), hrestarts, htoNat, if_neg (by omega)]

theorem decodeEntry_oneEntryBlock (hk : key.length < 128) (hv : value.length < 128) (limit : ℕ) :
    decodeEntry (oneEntryBlock key value) limit 0 =
      .ok (0, UInt32.ofNat key.length, UInt32.ofNat value.length, 3) := by
  have hlengths : bytesAt (oneEntryBlock key value) 0 3 =
      .ok [0, UInt8.ofNat key.length, UInt8.ofNat value.length] :=
    bytesAt_of_append [] _ (oneEntryBlock_eq hk hv) rfl rfl
  have hor : (0 : UInt8) ||| UInt8.ofNat key.length ||| UInt8.ofNat value.length < 128 := by
    rw [UInt8.lt_iff_toNat_lt, UInt8.toNat_or, UInt8.toNat_or, UInt8.toNat_ofNat', UInt8.toNat_ofNat',
      Nat.mod_eq_of_lt (by omega), Nat.mod_eq_of_lt (by omega)]
    exact Nat.or_lt_two_pow (n := 7) (by simpa using hk) hv
  have hwide : ∀ n < 128, (UInt8.ofNat n).toUInt32 = UInt32.ofNat n := by
    intro n hn
    apply UInt32.toNat_inj.mp
    rw [UInt8.toNat_toUInt32, UInt8.toNat_ofNat', UInt32.toNat_ofNat', Nat.mod_eq_of_lt (by omega),
      Nat.mod_eq_of_lt (by omega)]
  rw [decodeEntry, hlengths]
  simp only [bind, Except.bind, List.getD_cons_zero, List.getD_cons_succ, if_pos hor, hwide _ hk,
    hwide _ hv]
  rfl

/-- The one entry is found under its own key. -/
theorem seekInBlock_oneEntryBlock (h8 : 8 ≤ key.length) (hk : key.length < 128)
    (hv : value.length < 128) :
    seekInBlock (oneEntryBlock key value) key =
      .ok (some ⟨0, key, value, 3 + key.length + value.length⟩) := by
  have hkn : (UInt32.ofNat key.length).toNat = key.length := by
    rw [UInt32.toNat_ofNat', Nat.mod_eq_of_lt (by omega)]
  have hvn : (UInt32.ofNat value.length).toNat = value.length := by
    rw [UInt32.toNat_ofNat', Nat.mod_eq_of_lt (by omega)]
  have hrn : (UInt32.ofNat (3 + key.length + value.length)).toNat = 3 + key.length + value.length := by
    rw [UInt32.toNat_ofNat', Nat.mod_eq_of_lt (by omega)]
  have hblock := oneEntryBlock_eq hk hv
  have hentry := decodeEntry_oneEntryBlock hk hv
  set data := oneEntryBlock key value with hdata
  have hkey : bytesAt data 3 key.length = .ok key := bytesAt_of_append _ _ hblock rfl rfl
  have hvalue : bytesAt data (3 + key.length) value.length = .ok value := by
    refine bytesAt_of_append ([0, UInt8.ofNat key.length, UInt8.ofNat value.length] ++ key)
      (putFixed32 0 ++ putFixed32 1) ?_ ?_ rfl
    · rw [hblock, List.append_assoc]
    · rw [List.length_append]
      rfl
  set b := blockLayout data with hb
  have hlayout : b = ⟨3 + key.length + value.length + 8,
      UInt32.ofNat (3 + key.length + value.length), 1⟩ := blockLayout_oneEntryBlock hk hv
  have hrestart : b.getRestartPoint data 0 = .ok 0 := by
    have hbytes : bytesAt data (3 + key.length + value.length) 4 = .ok (putFixed32 0) := by
      refine bytesAt_of_append (blockEntry key value) (putFixed32 1) ?_ ?_ rfl
      · rw [hdata, oneEntryBlock, List.append_assoc]
      · have hlen := length_oneEntryBlock hk hv
        rw [oneEntryBlock] at hlen
        simp only [List.length_append, putFixed32, length_leBytes] at hlen
        omega
    rw [BlockLayout.getRestartPoint, hlayout]
    dsimp only
    rw [hrn, Nat.zero_mul, Nat.add_zero, hbytes]
    rfl
  have hself : compareCurrentKey key key = .ok .eq := by
    rw [compareCurrentKey, if_neg (by omega), Std.ReflOrd.compare_self, Std.ReflOrd.compare_self]
    rfl
  have hseek : binarySeek data b key (-1) 0 = .ok (0, true) := by
    rw [binarySeek, if_pos (by decide)]
    have hmid : (-1 + (0 - -1 + 1) / 2 : ℤ).toNat = 0 := by decide
    simp only [bind, Except.bind, hmid, hrestart, hentry, hkn, hkey, hself, ne_eq, not_true, if_false]
    rfl
  have hparse : parseNextKey data (3 + key.length + value.length) [] 0 =
      .ok (some ⟨0, key, value, 3 + key.length + value.length⟩) := by
    rw [parseNextKey, if_neg (by omega)]
    simp only [bind, Except.bind, hentry, hkn, hvn, hkey, hvalue]
    rfl
  have hnonzero : UInt32.ofNat (3 + key.length + value.length) ≠ 0 := by
    intro hzero
    have htoNat := congrArg UInt32.toNat hzero
    rw [hrn] at htoNat
    exact absurd htoNat (by simp)
  rw [seekInBlock, ← hb]
  have hsize : ¬ b.size < 8 := by
    rw [hlayout]
    dsimp only
    omega
  have hempty : ¬ (b.numRestarts = 0 ∨ b.restarts = 0) := by
    rw [hlayout]
    rintro (hno | hno)
    · cases hno
    · exact hnonzero hno
  have hlast : ((b.numRestarts.toNat : ℤ) - 1) = 0 := by
    rw [hlayout]
    rfl
  have hrestarts : b.restarts.toNat = 3 + key.length + value.length := by
    rw [hlayout]
    exact hrn
  simp only [hsize, if_false, hempty, hlast, hseek, bind, Except.bind, findKeyAfterBinarySeek, hrestart,
    hrestarts, hparse]
  rfl

end
end AegonKV

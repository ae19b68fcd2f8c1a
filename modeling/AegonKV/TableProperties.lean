import AegonKV.BlobIndexFormat
import AegonKV.TableReferences
import AegonKV.GroupedFold
import AegonKV.VersionEditFormat

/-!
# Table properties

`BlobFileSizeCollector` and `BlobValidationCollector` walk the entries of a table, keep a map by blob
file and write it as a property; the callbacks decode the properties of several tables into one map.
A map is written in some order of its own, by key or unspecified, so the encoders take the order in
which they walk it. A decoder returns the rest of the slice, or nothing where the source returns
`false`, and the map as it leaves it.
-/

namespace AegonKV
open LittleEndian GroupedFold PrefixReader

inductive EntryType
  | kEntryPut | kEntryDelete | kEntrySingleDelete | kEntryMerge | kEntryRangeDeletion
  | kEntryBlobIndex | kEntryDeleteWithTimestamp | kEntryOther
  deriving DecidableEq, Repr

structure UserEntry where
  value : Bytes
  type : EntryType

def addUserEntry {μ : Type} (collect : μ → BlobIndex → μ) (m : μ) (e : UserEntry) : Status × μ :=
  if e.type ≠ .kEntryBlobIndex then (.ok, m)
  else
    match BlobIndex.decodeFrom e.value with
    | .error s => (s, m)
    | .ok (index, _) => (.ok, collect m index)

structure WalkOrder (γ : Type) where
  walk : (AList fun _ : UInt64 => γ) → List ((_ : UInt64) × γ)
  perm : ∀ m, (walk m).Perm m.entries

/-- A decoder that reads on alike when more follows accepts nothing shorter than what it reads to the
end. -/
theorem decode_shorter {μ : Type} (decode : Bytes → μ → Option Bytes × μ) {m done : μ}
    (happend : ∀ slice rest m', decode slice m = (some rest, m') →
      ∀ tail, decode (slice ++ tail) m = (some (rest ++ tail), m'))
    {whole slice tail : Bytes} (hwhole : decode whole m = (some [], done))
    (hsplit : whole = slice ++ tail) (htail : tail ≠ []) : (decode slice m).1 = none := by
  cases hdecode : decode slice m with
  | mk rest m' =>
      cases rest with
      | none => rfl
      | some rest =>
          have hall := happend slice rest m' hdecode tail
          rw [← hsplit, hwhole] at hall
          have hrest := Option.some.inj (Prod.mk.inj hall).1
          exact absurd (List.append_eq_nil_iff.mp hrest.symm).2 htail

namespace BlobFileSizeCollector

abbrev Sizes := AList fun _ : UInt64 => UInt64

def addUserKey (sizes : Sizes) (e : UserEntry) : Status × Sizes :=
  addUserEntry AegonKV.addUserKey sizes e

def encode (blobFilesSize : List ((_ : UInt64) × UInt64)) : Bytes :=
  putVarint32 (UInt32.ofNat blobFilesSize.length) ++
    blobFilesSize.flatMap fun bfs => putVarint64 bfs.1 ++ putVarint64 bfs.2

def decodeSizes : ℕ → Bytes → Sizes → Option Bytes × Sizes
  | 0, slice, sizes => (some slice, sizes)
  | n + 1, slice, sizes =>
    match getVarint64 slice with
    | none => (none, sizes)
    | some (fileNumber, slice) =>
      match getVarint64 slice with
      | none => (none, sizes)
      | some (size, slice) => decodeSizes n slice (sizes.insert fileNumber size)

def decode (slice : Bytes) (sizes : Sizes) : Option Bytes × Sizes :=
  match getVarint32 slice with
  | none => (none, sizes)
  | some (num, slice) => decodeSizes num.toNat slice sizes

def finish (order : WalkOrder UInt64) (sizes : Sizes) : Option Bytes :=
  if sizes.entries.isEmpty then none else some (encode (order.walk sizes))

end BlobFileSizeCollector

namespace BlobValidationCollector

abbrev Entries := AList fun _ : UInt64 => List UInt64

def pushBack (indexes : List UInt64) (index : UInt64) : List UInt64 := indexes ++ [index]

def push (entries : Entries) (fileNumber index : UInt64) : Entries :=
  accumulate pushBack [] entries fileNumber index

def addUserKey (entries : Entries) (e : UserEntry) : Status × Entries :=
  addUserEntry (fun entries index => push entries index.fileNumber index.blobHandle.index) entries e

def encode (blobEntryIndexes : List ((_ : UInt64) × List UInt64)) : Bytes :=
  putVarint32 (UInt32.ofNat blobEntryIndexes.length) ++
    blobEntryIndexes.flatMap fun item =>
      putVarint64 item.1 ++ putVarint32 (UInt32.ofNat item.2.length) ++ item.2.flatMap putVarint64

def decodeIndexes (fileNumber : UInt64) : ℕ → Bytes → Entries → Option Bytes × Entries
  | 0, slice, entries => (some slice, entries)
  | n + 1, slice, entries =>
    match getVarint64 slice with
    | none => (none, entries)
    | some (index, slice) => decodeIndexes fileNumber n slice (push entries fileNumber index)

def decodeFiles : ℕ → Bytes → Entries → Option Bytes × Entries
  | 0, slice, entries => (some slice, entries)
  | n + 1, slice, entries =>
    match getVarint64 slice with
    | none => (none, entries)
    | some (fileNumber, slice) =>
      match getVarint32 slice with
      | none => (none, entries)
      | some (size, slice) =>
        match decodeIndexes fileNumber size.toNat slice entries with
        | (none, entries) => (none, entries)
        | (some slice, entries) => decodeFiles n slice entries

def decode (slice : Bytes) (entries : Entries) : Option Bytes × Entries :=
  match getVarint32 slice with
  | none => (none, entries)
  | some (num, slice) => decodeFiles num.toNat slice entries

def finish (order : WalkOrder (List UInt64)) (entries : Entries) : Option Bytes :=
  if entries.entries.isEmpty then none else some (encode (order.walk entries))

end BlobValidationCollector

/-! ## The callbacks -/

/-- `(*blob_file_size_diff)[file_number] += diff`, in 64 bits. -/
def addDiff (toAdd : Bool) (diff : Int64) (size : UInt64) : Int64 :=
  diff + if toAdd then size.toInt64 else -size.toInt64

abbrev Diff64 := AList fun _ : UInt64 => Int64

/-- `ExtractGCStatsFromTableProperty`, given the property if the table has it. -/
def extractGCStats (order : WalkOrder UInt64) (prop : Option Bytes) (toAdd : Bool) (diff : Diff64) :
    Status × Diff64 :=
  match prop with
  | none => (.ok, diff)
  | some prop =>
    match BlobFileSizeCollector.decode prop ∅ with
    | (none, _) => (.corruption "Failed to decode blob file size property.", diff)
    | (some _, sizes) =>
      (.ok, (order.walk sizes).foldl
        (fun diff e => accumulate (fun d e => addDiff toAdd d e.2) 0 diff e.1 e) diff)

/-- `ExtractBlobValidationFromTableProperty`, given the property if the table has it. -/
def extractBlobValidation (prop : Option Bytes) (entries : BlobValidationCollector.Entries) :
    Status × BlobValidationCollector.Entries :=
  match prop with
  | none => (.ok, entries)
  | some prop =>
    match BlobValidationCollector.decode prop entries with
    | (none, entries) => (.corruption "Failed to decode blob file size property.", entries)
    | (some _, entries) => (.ok, entries)

/-! ## Decoding what was encoded -/

namespace BlobFileSizeCollector

theorem decodeSizes_encode (l : List ((_ : UInt64) × UInt64)) (sizes : Sizes) (rest : Bytes) :
    decodeSizes l.length (l.flatMap (fun bfs => putVarint64 bfs.1 ++ putVarint64 bfs.2) ++ rest)
      sizes = (some rest, l.foldl (fun sizes bfs => sizes.insert bfs.1 bfs.2) sizes) := by
  induction l generalizing sizes with
  | nil => rfl
  | cons bfs l ih =>
      rw [List.length_cons, List.flatMap_cons, decodeSizes]
      simp only [List.append_assoc, getVarint64_putVarint64]
      exact ih _

theorem decode_encode {l : List ((_ : UInt64) × UInt64)} (hl : l.length < 2 ^ 32) (sizes : Sizes) :
    decode (encode l) sizes =
      (some [], l.foldl (fun sizes bfs => sizes.insert bfs.1 bfs.2) sizes) := by
  have hnum : (UInt32.ofNat l.length).toNat = l.length := by
    rw [UInt32.toNat_ofNat', Nat.mod_eq_of_lt hl]
  have hall := decodeSizes_encode l sizes []
  rw [List.append_nil] at hall
  rw [decode, encode, getVarint32_putVarint32]
  simp only [hnum, hall]

theorem decodeSizes_append {n : ℕ} {slice rest : Bytes} {sizes sizes' : Sizes}
    (h : decodeSizes n slice sizes = (some rest, sizes')) (tail : Bytes) :
    decodeSizes n (slice ++ tail) sizes = (some (rest ++ tail), sizes') := by
  induction n generalizing slice sizes with
  | zero =>
      obtain ⟨hslice, rfl⟩ := Prod.mk.inj h
      obtain rfl := Option.some.inj hslice
      rfl
  | succ n ih =>
      rw [decodeSizes] at h
      rw [decodeSizes]
      cases hnumber : getVarint64 slice with
      | none =>
          rw [hnumber] at h
          cases h
      | some p =>
          rw [hnumber] at h
          simp only [reads_getVarint64.append hnumber tail]
          cases hsize : getVarint64 p.2 with
          | none =>
              simp only [hsize] at h
              cases h
          | some q =>
              simp only [hsize] at h
              simp only [reads_getVarint64.append hsize tail]
              exact ih h

theorem decode_append {slice rest : Bytes} {sizes sizes' : Sizes}
    (h : decode slice sizes = (some rest, sizes')) (tail : Bytes) :
    decode (slice ++ tail) sizes = (some (rest ++ tail), sizes') := by
  rw [decode] at h
  rw [decode]
  cases hnum : getVarint32 slice with
  | none =>
      rw [hnum] at h
      cases h
  | some p =>
      simp only [hnum] at h
      simp only [reads_getVarint32.append hnum tail]
      exact decodeSizes_append h tail

/-- Nothing shorter than the property is accepted. -/
theorem decode_truncated {l : List ((_ : UInt64) × UInt64)} (hl : l.length < 2 ^ 32)
    {slice tail : Bytes} (hsplit : encode l = slice ++ tail) (htail : tail ≠ []) (sizes : Sizes) :
    (decode slice sizes).1 = none :=
  decode_shorter decode (fun _ _ _ h tail => decode_append h tail) (decode_encode hl sizes) hsplit
    htail

end BlobFileSizeCollector
namespace BlobValidationCollector

/-- What decoding one item of the property pushes. -/
def pushAll (entries : Entries) (item : (_ : UInt64) × List UInt64) : Entries :=
  item.2.foldl (fun entries index => push entries item.1 index) entries

theorem decodeIndexes_encode (fileNumber : UInt64) (indexes : List UInt64) (entries : Entries)
    (rest : Bytes) :
    decodeIndexes fileNumber indexes.length (indexes.flatMap putVarint64 ++ rest) entries =
      (some rest, pushAll entries ⟨fileNumber, indexes⟩) := by
  induction indexes generalizing entries with
  | nil => rfl
  | cons index indexes ih =>
      rw [List.length_cons, List.flatMap_cons, List.append_assoc, decodeIndexes]
      simp only [getVarint64_putVarint64]
      exact ih _

theorem decodeFiles_encode {l : List ((_ : UInt64) × List UInt64)}
    (hl : ∀ item ∈ l, item.2.length < 2 ^ 32) (entries : Entries) (rest : Bytes) :
    decodeFiles l.length (l.flatMap (fun item => putVarint64 item.1 ++
      putVarint32 (UInt32.ofNat item.2.length) ++ item.2.flatMap putVarint64) ++ rest) entries =
      (some rest, l.foldl pushAll entries) := by
  induction l generalizing entries with
  | nil => rfl
  | cons item l ih =>
      have hsize : (UInt32.ofNat item.2.length).toNat = item.2.length := by
        rw [UInt32.toNat_ofNat', Nat.mod_eq_of_lt (hl item List.mem_cons_self)]
      rw [List.length_cons, List.flatMap_cons, decodeFiles]
      simp only [List.append_assoc, getVarint64_putVarint64, getVarint32_putVarint32, hsize,
        decodeIndexes_encode]
      have hrest := ih (fun other hother => hl other (List.mem_cons_of_mem _ hother))
        (pushAll entries item)
      simp only [List.append_assoc] at hrest
      exact hrest

theorem decode_encode {l : List ((_ : UInt64) × List UInt64)} (hlen : l.length < 2 ^ 32)
    (hl : ∀ item ∈ l, item.2.length < 2 ^ 32) (entries : Entries) :
    decode (encode l) entries = (some [], l.foldl pushAll entries) := by
  have hnum : (UInt32.ofNat l.length).toNat = l.length := by
    rw [UInt32.toNat_ofNat', Nat.mod_eq_of_lt hlen]
  have hall := decodeFiles_encode hl entries []
  rw [List.append_nil] at hall
  rw [decode, encode, getVarint32_putVarint32]
  simp only [hnum, hall]

theorem decodeIndexes_append {fileNumber : UInt64} {n : ℕ} {slice rest : Bytes}
    {entries entries' : Entries}
    (h : decodeIndexes fileNumber n slice entries = (some rest, entries')) (tail : Bytes) :
    decodeIndexes fileNumber n (slice ++ tail) entries = (some (rest ++ tail), entries') := by
  induction n generalizing slice entries with
  | zero =>
      obtain ⟨hslice, rfl⟩ := Prod.mk.inj h
      obtain rfl := Option.some.inj hslice
      rfl
  | succ n ih =>
      rw [decodeIndexes] at h
      rw [decodeIndexes]
      cases hindex : getVarint64 slice with
      | none =>
          rw [hindex] at h
          cases h
      | some p =>
          simp only [hindex] at h
          simp only [reads_getVarint64.append hindex tail]
          exact ih h

theorem decodeFiles_append {n : ℕ} {slice rest : Bytes} {entries entries' : Entries}
    (h : decodeFiles n slice entries = (some rest, entries')) (tail : Bytes) :
    decodeFiles n (slice ++ tail) entries = (some (rest ++ tail), entries') := by
  induction n generalizing slice entries with
  | zero =>
      obtain ⟨hslice, rfl⟩ := Prod.mk.inj h
      obtain rfl := Option.some.inj hslice
      rfl
  | succ n ih =>
      rw [decodeFiles] at h
      rw [decodeFiles]
      cases hnumber : getVarint64 slice with
      | none =>
          rw [hnumber] at h
          cases h
      | some p =>
          simp only [hnumber] at h
          simp only [reads_getVarint64.append hnumber tail]
          cases hsize : getVarint32 p.2 with
          | none =>
              simp only [hsize] at h
              cases h
          | some q =>
              simp only [hsize] at h
              simp only [reads_getVarint32.append hsize tail]
              cases hindexes : decodeIndexes p.1 q.1.toNat q.2 entries with
              | mk slice' entries'' =>
                  cases slice' with
                  | none =>
                      simp only [hindexes] at h
                      cases h
                  | some slice' =>
                      simp only [hindexes] at h
                      simp only [decodeIndexes_append hindexes tail]
                      exact ih h

theorem decode_append {slice rest : Bytes} {entries entries' : Entries}
    (h : decode slice entries = (some rest, entries')) (tail : Bytes) :
    decode (slice ++ tail) entries = (some (rest ++ tail), entries') := by
  rw [decode] at h
  rw [decode]
  cases hnum : getVarint32 slice with
  | none =>
      rw [hnum] at h
      cases h
  | some p =>
      simp only [hnum] at h
      simp only [reads_getVarint32.append hnum tail]
      exact decodeFiles_append h tail

/-- Nothing shorter than the property is accepted. -/
theorem decode_truncated {l : List ((_ : UInt64) × List UInt64)} (hlen : l.length < 2 ^ 32)
    (hl : ∀ item ∈ l, item.2.length < 2 ^ 32) {slice tail : Bytes}
    (hsplit : encode l = slice ++ tail) (htail : tail ≠ []) (entries : Entries) :
    (decode slice entries).1 = none :=
  decode_shorter decode (fun _ _ _ h tail => decode_append h tail) (decode_encode hlen hl entries)
    hsplit htail

theorem foldl_pushBack (indexes front : List UInt64) :
    indexes.foldl pushBack front = front ++ indexes := by
  induction indexes generalizing front with
  | nil => exact (List.append_nil front).symm
  | cons index indexes ih =>
      rw [List.foldl_cons, ih, pushBack, List.append_assoc]
      rfl

theorem valueAt_pushAll (entries : Entries) (item : (_ : UInt64) × List UInt64) (f : UInt64) :
    valueAt [] (pushAll entries item) f =
      valueAt [] entries f ++ if item.1 = f then item.2 else [] := by
  have hfold := valueAt_foldl_accumulate pushBack [] (fun _ => item.1) item.2 entries f
  rw [pushAll]
  unfold push
  rw [hfold]
  by_cases hf : item.1 = f
  · rw [if_pos hf, List.filter_eq_self.mpr fun _ _ => decide_eq_true hf, foldl_pushBack]
  · rw [if_neg hf, List.filter_eq_nil_iff.mpr fun _ _ => by simpa using hf, List.append_nil]
    rfl

/-- A decoded property adds to each file what it holds for the file. -/
theorem valueAt_foldl_pushAll {l : List ((_ : UInt64) × List UInt64)} (hn : l.NodupKeys)
    (entries : Entries) (f : UInt64) :
    valueAt [] (l.foldl pushAll entries) f = valueAt [] entries f ++ (l.dlookup f).getD [] := by
  induction l generalizing entries with
  | nil => exact (List.append_nil _).symm
  | cons item l ih =>
      obtain ⟨key, indexes⟩ := item
      obtain ⟨hnot, hn⟩ := List.nodupKeys_cons.mp hn
      rw [List.foldl_cons, ih hn, valueAt_pushAll]
      by_cases hf : f = key
      · subst hf
        rw [if_pos rfl, List.dlookup_eq_none.mpr hnot, List.dlookup_cons_eq, Option.getD_none,
          List.append_nil]
        rfl
      · rw [if_neg (Ne.symm hf), List.dlookup_cons_ne _ _ hf, List.append_nil]

end BlobValidationCollector

/-! ## What the collectors gather -/

def UserEntry.newPart? (e : UserEntry) : Option BlobIndex :=
  if e.type = .kEntryBlobIndex then (BlobIndex.decodeFrom e.value).toOption.map Prod.fst else none

def newParts (entries : List UserEntry) : SsTable := entries.filterMap UserEntry.newPart?

theorem StoredIndex.newPart? (b : StoredIndex) :
    UserEntry.newPart? ⟨b.encodeTo, .kEntryBlobIndex⟩ = some b.toBlobIndex := by
  rw [UserEntry.newPart?, if_pos rfl, b.decodeFrom_encodeTo]
  rfl

theorem addUserEntry_snd {μ : Type} (collect : μ → BlobIndex → μ) (m : μ) (e : UserEntry) :
    (addUserEntry collect m e).2 = e.newPart?.toList.foldl collect m := by
  unfold addUserEntry UserEntry.newPart?
  by_cases htype : e.type = .kEntryBlobIndex
  · rw [if_neg (not_not_intro htype), if_pos htype]
    cases BlobIndex.decodeFrom e.value with
    | error s => rfl
    | ok p => rfl
  · rw [if_pos htype, if_neg htype]
    rfl

theorem foldl_addUserEntry {μ : Type} (collect : μ → BlobIndex → μ) (entries : List UserEntry)
    (m : μ) :
    entries.foldl (fun m e => (addUserEntry collect m e).2) m = (newParts entries).foldl collect m := by
  induction entries generalizing m with
  | nil => rfl
  | cons e entries ih =>
      rw [List.foldl_cons, ih, addUserEntry_snd, newParts, newParts, List.filterMap_cons]
      cases e.newPart? with
      | none => rfl
      | some index => rfl

theorem length_newParts_le (entries : List UserEntry) : (newParts entries).length ≤ entries.length :=
  List.length_filterMap_le _ _

/-- The maps of the collectors after the entries of a table. -/
def collectSizes (entries : List UserEntry) : BlobFileSizeCollector.Sizes :=
  entries.foldl (fun m e => (BlobFileSizeCollector.addUserKey m e).2) ∅

def collectIndexes (entries : List UserEntry) : BlobValidationCollector.Entries :=
  entries.foldl (fun m e => (BlobValidationCollector.addUserKey m e).2) ∅

def indexesOf (f : UInt64) (entries : List UserEntry) : List UInt64 :=
  (references f [newParts entries]).map fun index => index.blobHandle.index

def sizeOf (f : UInt64) (entries : List UserEntry) : ℕ := referencedSize f [newParts entries]

theorem collectSizes_eq (entries : List UserEntry) :
    collectSizes entries = (newParts entries).blobFilesSize :=
  foldl_addUserEntry AegonKV.addUserKey entries ∅

theorem collectIndexes_eq (entries : List UserEntry) :
    collectIndexes entries = (newParts entries).foldl (fun m index => accumulate
      (fun l (i : BlobIndex) => BlobValidationCollector.pushBack l i.blobHandle.index) [] m
        index.fileNumber index) ∅ :=
  foldl_addUserEntry _ entries ∅

theorem addUserKey_eq_accumulate (sizes : BlobFileSizeCollector.Sizes) (index : BlobIndex) :
    AegonKV.addUserKey sizes index =
      accumulate (fun size (i : BlobIndex) => size + i.blobHandle.size) 0 sizes index.fileNumber
        index := by
  rw [AegonKV.addUserKey, accumulate]
  cases sizes.lookup index.fileNumber with
  | none => rw [Option.getD_none, UInt64.zero_add]
  | some size => rfl

theorem valueAt_collectSizes (f : UInt64) (entries : List UserEntry) :
    valueAt 0 (collectSizes entries) f = UInt64.ofNat (sizeOf f entries) := by
  rw [collectSizes_eq]
  exact getD_lookup_blobFilesSize f (newParts entries)

theorem valueAt_collectIndexes (f : UInt64) (entries : List UserEntry) :
    valueAt [] (collectIndexes entries) f = indexesOf f entries := by
  have hempty : valueAt [] (∅ : BlobValidationCollector.Entries) f = [] := rfl
  have hpush : ∀ t : SsTable, t.foldl (fun l i => BlobValidationCollector.pushBack l
      i.blobHandle.index) [] = t.map fun i => i.blobHandle.index := by
    intro t
    rw [← List.foldl_map, BlobValidationCollector.foldl_pushBack, List.nil_append]
  rw [collectIndexes_eq, valueAt_foldl_accumulate (fun l (i : BlobIndex) =>
    BlobValidationCollector.pushBack l i.blobHandle.index) [] (fun i => i.fileNumber), hempty, hpush,
    indexesOf, references, List.flatten_singleton]

theorem length_collectSizes_le (entries : List UserEntry) :
    (collectSizes entries).entries.length ≤ entries.length := by
  have hfold := length_foldl_accumulate_le (fun size (i : BlobIndex) => size + i.blobHandle.size) 0
    (fun i => i.fileNumber) (newParts entries) ∅
  have hlen := length_newParts_le entries
  have hstep : AegonKV.addUserKey = fun sizes index => accumulate
      (fun size (i : BlobIndex) => size + i.blobHandle.size) 0 sizes index.fileNumber index := by
    funext sizes index
    exact addUserKey_eq_accumulate sizes index
  rw [collectSizes_eq, SsTable.blobFilesSize, hstep]
  exact hfold.trans (by simpa using hlen)

theorem length_collectIndexes_le (entries : List UserEntry) :
    (collectIndexes entries).entries.length ≤ entries.length := by
  have hfold := length_foldl_accumulate_le (fun l (i : BlobIndex) =>
    BlobValidationCollector.pushBack l i.blobHandle.index) [] (fun i => i.fileNumber)
    (newParts entries) ∅
  have hlen := length_newParts_le entries
  rw [collectIndexes_eq]
  exact hfold.trans (by simpa using hlen)

theorem length_indexesOf_le (f : UInt64) (entries : List UserEntry) :
    (indexesOf f entries).length ≤ entries.length := by
  rw [indexesOf, List.length_map, references, List.flatten_singleton]
  exact (List.length_filter_le _ _).trans (length_newParts_le entries)

/-! ## Walking the maps -/

namespace WalkOrder
variable {γ : Type} (order : WalkOrder γ) (m : AList fun _ : UInt64 => γ)

theorem nodupKeys : (order.walk m).NodupKeys :=
  (List.perm_nodupKeys (order.perm m)).mpr m.nodupKeys

theorem dlookup (f : UInt64) : (order.walk m).dlookup f = m.lookup f :=
  List.perm_dlookup f (order.nodupKeys m) (order.perm m)

theorem length : (order.walk m).length = m.entries.length := (order.perm m).length_eq

end WalkOrder

theorem length_item_lt {order : WalkOrder (List UInt64)} {entries : List UserEntry}
    (hcount : entries.length < 2 ^ 32) :
    ∀ item ∈ order.walk (collectIndexes entries), item.2.length < 2 ^ 32 := by
  rintro ⟨f, indexes⟩ hitem
  have hlookup : (collectIndexes entries).lookup f = some indexes :=
    (List.mem_dlookup_iff (collectIndexes entries).nodupKeys).mpr ((order.perm _).mem_iff.mp hitem)
  have hvalue := valueAt_collectIndexes f entries
  rw [valueAt, hlookup, Option.getD_some] at hvalue
  have hle := length_indexesOf_le f entries
  rw [← hvalue] at hle
  exact lt_of_le_of_lt hle hcount

/-! ## One table -/

structure ExactTable (orderS : WalkOrder UInt64) (orderV : WalkOrder (List UInt64))
    (entries : List UserEntry) : Prop where
  sizes : ∀ prop, BlobFileSizeCollector.finish orderS (collectSizes entries) = some prop →
    ∃ sizes, BlobFileSizeCollector.decode prop ∅ = (some [], sizes) ∧
      ∀ f, (valueAt 0 sizes f).toNat = sizeOf f entries
  noSizes : BlobFileSizeCollector.finish orderS (collectSizes entries) = none →
    ∀ f, sizeOf f entries = 0
  truncatedSizes : ∀ slice tail, BlobFileSizeCollector.finish orderS (collectSizes entries) =
    some (slice ++ tail) → tail ≠ [] → ∀ sizes, (BlobFileSizeCollector.decode slice sizes).1 = none
  indexes : ∀ prop, BlobValidationCollector.finish orderV (collectIndexes entries) = some prop →
    ∃ m, BlobValidationCollector.decode prop ∅ = (some [], m) ∧
      ∀ f, valueAt [] m f = indexesOf f entries
  noIndexes : BlobValidationCollector.finish orderV (collectIndexes entries) = none →
    ∀ f, indexesOf f entries = []
  truncatedIndexes : ∀ slice tail, BlobValidationCollector.finish orderV (collectIndexes entries) =
    some (slice ++ tail) → tail ≠ [] → ∀ m, (BlobValidationCollector.decode slice m).1 = none

section Table
variable {orderS : WalkOrder UInt64} {orderV : WalkOrder (List UInt64)} {entries : List UserEntry}

theorem decode_finish_sizes (hcount : entries.length < 2 ^ 32) {prop : Bytes}
    (h : BlobFileSizeCollector.finish orderS (collectSizes entries) = some prop) :
    prop = BlobFileSizeCollector.encode (orderS.walk (collectSizes entries)) ∧
      (orderS.walk (collectSizes entries)).length < 2 ^ 32 := by
  unfold BlobFileSizeCollector.finish at h
  split_ifs at h
  refine ⟨(Option.some.inj h).symm, ?_⟩
  rw [orderS.length]
  exact lt_of_le_of_lt (length_collectSizes_le entries) hcount

theorem decode_finish_indexes (hcount : entries.length < 2 ^ 32) {prop : Bytes}
    (h : BlobValidationCollector.finish orderV (collectIndexes entries) = some prop) :
    prop = BlobValidationCollector.encode (orderV.walk (collectIndexes entries)) ∧
      (orderV.walk (collectIndexes entries)).length < 2 ^ 32 := by
  unfold BlobValidationCollector.finish at h
  split_ifs at h
  refine ⟨(Option.some.inj h).symm, ?_⟩
  rw [orderV.length]
  exact lt_of_le_of_lt (length_collectIndexes_le entries) hcount

/-- The decoded map of sizes is the collector's. -/
theorem decoded_sizes (hcount : entries.length < 2 ^ 32) {prop : Bytes}
    (h : BlobFileSizeCollector.finish orderS (collectSizes entries) = some prop) :
    ∃ sizes, BlobFileSizeCollector.decode prop ∅ = (some [], sizes) ∧
      ∀ f, sizes.lookup f = (collectSizes entries).lookup f := by
  obtain ⟨rfl, hlen⟩ := decode_finish_sizes hcount h
  refine ⟨_, BlobFileSizeCollector.decode_encode hlen ∅, fun f => ?_⟩
  rw [lookup_foldl_insert (orderS.nodupKeys _), orderS.dlookup, AList.lookup_empty, Option.or_none]

/-- Decoding the indexes adds those of the table to the map. -/
theorem decoded_indexes (hcount : entries.length < 2 ^ 32) {prop : Bytes}
    (h : BlobValidationCollector.finish orderV (collectIndexes entries) = some prop)
    (m : BlobValidationCollector.Entries) :
    ∃ m', BlobValidationCollector.decode prop m = (some [], m') ∧
      ∀ f, valueAt [] m' f = valueAt [] m f ++ indexesOf f entries := by
  obtain ⟨rfl, hlen⟩ := decode_finish_indexes hcount h
  refine ⟨_, BlobValidationCollector.decode_encode hlen (length_item_lt hcount) m, fun f => ?_⟩
  rw [BlobValidationCollector.valueAt_foldl_pushAll (orderV.nodupKeys _), orderV.dlookup,
    ← valueAt_collectIndexes f entries, valueAt]
  rfl

/-- A map without entries has nothing for any file. -/
theorem lookup_of_isEmpty {γ : Type} {m : AList fun _ : UInt64 => γ}
    (h : m.entries.isEmpty = true) (f : UInt64) : m.lookup f = none := by
  rw [AList.lookup, List.isEmpty_iff.mp h]
  rfl

theorem sizeOf_of_finish_none (hsize : ∀ f, sizeOf f entries < 2 ^ 63)
    (h : BlobFileSizeCollector.finish orderS (collectSizes entries) = none) (f : UInt64) :
    sizeOf f entries = 0 := by
  unfold BlobFileSizeCollector.finish at h
  split_ifs at h with hempty
  have hvalue := valueAt_collectSizes f entries
  rw [valueAt, lookup_of_isEmpty hempty] at hvalue
  have hnat := congrArg UInt64.toNat hvalue
  rw [UInt64.toNat_ofNat', Nat.mod_eq_of_lt (by have := hsize f; omega)] at hnat
  exact hnat.symm

theorem indexesOf_of_finish_none
    (h : BlobValidationCollector.finish orderV (collectIndexes entries) = none) (f : UInt64) :
    indexesOf f entries = [] := by
  unfold BlobValidationCollector.finish at h
  split_ifs at h with hempty
  rw [← valueAt_collectIndexes, valueAt, lookup_of_isEmpty hempty]
  rfl

theorem exactTable (hcount : entries.length < 2 ^ 32) (hsize : ∀ f, sizeOf f entries < 2 ^ 63) :
    ExactTable orderS orderV entries := by
  refine ⟨?_, sizeOf_of_finish_none hsize, ?_, ?_, indexesOf_of_finish_none, ?_⟩
  · intro prop hprop
    obtain ⟨sizes, hdecode, hlookup⟩ := decoded_sizes hcount hprop
    refine ⟨sizes, hdecode, fun f => ?_⟩
    have hvalue := valueAt_collectSizes f entries
    rw [valueAt, ← hlookup f] at hvalue
    rw [valueAt, hvalue, UInt64.toNat_ofNat', Nat.mod_eq_of_lt (by have := hsize f; omega)]
  · intro slice tail hprop htail sizes
    obtain ⟨hsplit, hlen⟩ := decode_finish_sizes hcount hprop
    exact BlobFileSizeCollector.decode_truncated hlen hsplit.symm htail sizes
  · intro prop hprop
    obtain ⟨m, hdecode, hvalue⟩ := decoded_indexes hcount hprop ∅
    exact ⟨m, hdecode, hvalue⟩
  · intro slice tail hprop htail m
    obtain ⟨hsplit, hlen⟩ := decode_finish_indexes hcount hprop
    exact BlobValidationCollector.decode_truncated hlen (length_item_lt hcount) hsplit.symm htail m

end Table

/-! ## Several tables -/

abbrev ReportedTable := Bool × List UserEntry

def extractDiffs (order : WalkOrder UInt64) (tables : List ReportedTable) (diff : Diff64) : Diff64 :=
  tables.foldl (fun diff t => (extractGCStats order
    (BlobFileSizeCollector.finish order (collectSizes t.2)) t.1 diff).2) diff

def extractIndexes (order : WalkOrder (List UInt64)) (tables : List ReportedTable)
    (entries : BlobValidationCollector.Entries) : BlobValidationCollector.Entries :=
  tables.foldl (fun entries t => (extractBlobValidation
    (BlobValidationCollector.finish order (collectIndexes t.2)) entries).2) entries

def signedSize (f : UInt64) (t : ReportedTable) : ℤ := if t.1 then sizeOf f t.2 else -(sizeOf f t.2 : ℤ)

theorem addDiff_ofNat (toAdd : Bool) (d : Int64) (n : ℕ) :
    addDiff toAdd d (UInt64.ofNat n) = d + Int64.ofInt (if toAdd then n else -(n : ℤ)) := by
  rw [addDiff, UInt64.toInt64_ofNat', ← Int64.ofInt_eq_ofNat]
  cases toAdd with
  | true => rfl
  | false => simp only [Bool.false_eq_true, if_false, Int64.ofInt_neg]

theorem extractGCStats_spec (order : WalkOrder UInt64) {t : ReportedTable}
    (hcount : t.2.length < 2 ^ 32) (hsize : ∀ f, sizeOf f t.2 < 2 ^ 63) (diff : Diff64) :
    (extractGCStats order (BlobFileSizeCollector.finish order (collectSizes t.2)) t.1 diff).1 = .ok ∧
      ∀ f, valueAt 0 (extractGCStats order (BlobFileSizeCollector.finish order (collectSizes t.2))
        t.1 diff).2 f = valueAt 0 diff f + Int64.ofInt (signedSize f t) := by
  cases hprop : BlobFileSizeCollector.finish order (collectSizes t.2) with
  | none =>
      refine ⟨rfl, fun f => ?_⟩
      have hzero := sizeOf_of_finish_none hsize hprop f
      have hsigned : signedSize f t = 0 := by
        rw [signedSize, hzero]
        split_ifs <;> rfl
      rw [hsigned]
      exact (Int64.add_zero _).symm
  | some prop =>
      obtain ⟨sizes, hdecode, hlookup⟩ := decoded_sizes hcount hprop
      simp only [extractGCStats, hdecode]
      refine ⟨trivial, fun f => ?_⟩
      have hvalue := valueAt_collectSizes f t.2
      rw [valueAt, ← hlookup f] at hvalue
      rw [valueAt_foldl_entries 0 (addDiff t.1) (order.nodupKeys sizes), order.dlookup, signedSize,
        ← addDiff_ofNat, ← hvalue]
      cases sizes.lookup f with
      | none =>
          have hzero := addDiff_ofNat t.1 (valueAt 0 diff f) 0
          have hint : (if t.1 then ((0 : ℕ) : ℤ) else -((0 : ℕ) : ℤ)) = 0 := by split_ifs <;> rfl
          rw [hint, show Int64.ofInt 0 = 0 from rfl, Int64.add_zero] at hzero
          exact hzero.symm
      | some size => rfl

theorem extractBlobValidation_spec (order : WalkOrder (List UInt64)) {t : ReportedTable}
    (hcount : t.2.length < 2 ^ 32) (entries : BlobValidationCollector.Entries) :
    (extractBlobValidation (BlobValidationCollector.finish order (collectIndexes t.2)) entries).1 =
        .ok ∧
      ∀ f, valueAt [] (extractBlobValidation (BlobValidationCollector.finish order
        (collectIndexes t.2)) entries).2 f = valueAt [] entries f ++ indexesOf f t.2 := by
  cases hprop : BlobValidationCollector.finish order (collectIndexes t.2) with
  | none =>
      refine ⟨rfl, fun f => ?_⟩
      rw [indexesOf_of_finish_none hprop, List.append_nil]
      rfl
  | some prop =>
      obtain ⟨m, hdecode, hvalue⟩ := decoded_indexes hcount hprop entries
      simp only [extractBlobValidation, hdecode]
      exact ⟨trivial, hvalue⟩

section Tables
variable {tables : List ReportedTable}

/-- The differences add up, in 64 bits. -/
theorem valueAt_extractDiffs (order : WalkOrder UInt64)
    (hcount : ∀ t ∈ tables, t.2.length < 2 ^ 32)
    (hsize : ∀ t ∈ tables, ∀ f, sizeOf f t.2 < 2 ^ 63) (diff : Diff64) (f : UInt64) :
    valueAt 0 (extractDiffs order tables diff) f =
      valueAt 0 diff f + Int64.ofInt (tables.map (signedSize f)).sum := by
  induction tables generalizing diff with
  | nil => exact (Int64.add_zero _).symm
  | cons t tables ih =>
      have hhead := (extractGCStats_spec order (hcount t List.mem_cons_self)
        (hsize t List.mem_cons_self) diff).2 f
      have hrest := ih (fun t' ht' => hcount t' (List.mem_cons_of_mem _ ht'))
        (fun t' ht' => hsize t' (List.mem_cons_of_mem _ ht'))
        (extractGCStats order (BlobFileSizeCollector.finish order (collectSizes t.2)) t.1 diff).2
      rw [List.map_cons, List.sum_cons, Int64.ofInt_add, ← Int64.add_assoc, ← hhead, ← hrest]
      rfl

/-- The indexes of all tables are put together. -/
theorem valueAt_extractIndexes (order : WalkOrder (List UInt64))
    (hcount : ∀ t ∈ tables, t.2.length < 2 ^ 32) (entries : BlobValidationCollector.Entries)
    (f : UInt64) :
    valueAt [] (extractIndexes order tables entries) f =
      valueAt [] entries f ++ tables.flatMap fun t => indexesOf f t.2 := by
  induction tables generalizing entries with
  | nil => exact (List.append_nil _).symm
  | cons t tables ih =>
      have hhead := (extractBlobValidation_spec order (hcount t List.mem_cons_self) entries).2 f
      have hrest := ih (fun t' ht' => hcount t' (List.mem_cons_of_mem _ ht'))
        (extractBlobValidation (BlobValidationCollector.finish order (collectIndexes t.2)) entries).2
      rw [List.flatMap_cons, ← List.append_assoc, ← hhead, ← hrest]
      rfl

/-- The properties of a table say exactly what it references, those of several tables add up, and a
truncated property is refused. -/
theorem tableProperties_exact (orderS : WalkOrder UInt64) (orderV : WalkOrder (List UInt64))
    (hcount : ∀ t ∈ tables, t.2.length < 2 ^ 32)
    (hsize : ∀ t ∈ tables, ∀ f, sizeOf f t.2 < 2 ^ 63) :
    (∀ t ∈ tables, ExactTable orderS orderV t.2) ∧
    (∀ t ∈ tables, ∀ diff entries,
      (extractGCStats orderS (BlobFileSizeCollector.finish orderS (collectSizes t.2)) t.1 diff).1 =
          .ok ∧
        (extractBlobValidation (BlobValidationCollector.finish orderV (collectIndexes t.2))
          entries).1 = .ok) ∧
    (∀ f, -2 ^ 63 ≤ (tables.map (signedSize f)).sum → (tables.map (signedSize f)).sum < 2 ^ 63 →
      (valueAt 0 (extractDiffs orderS tables ∅) f).toInt = (tables.map (signedSize f)).sum) ∧
    (∀ f, valueAt [] (extractIndexes orderV tables ∅) f =
      tables.flatMap fun t => indexesOf f t.2) ∧
    ∀ b : StoredIndex, UserEntry.newPart? ⟨b.encodeTo, .kEntryBlobIndex⟩ = some b.toBlobIndex := by
  refine ⟨fun t ht => exactTable (hcount t ht) (hsize t ht), fun t ht diff entries => ⟨?_, ?_⟩,
    fun f hlow hhigh => ?_, fun f => ?_, StoredIndex.newPart?⟩
  · exact (extractGCStats_spec orderS (hcount t ht) (hsize t ht) diff).1
  · exact (extractBlobValidation_spec orderV (hcount t ht) entries).1
  · have hvalue := valueAt_extractDiffs orderS hcount hsize ∅ f
    have hempty : valueAt 0 (∅ : Diff64) f = 0 := rfl
    rw [hvalue, hempty, Int64.zero_add, Int64.toInt_ofInt_of_le hlow hhigh]
  · exact valueAt_extractIndexes orderV hcount ∅ f

end Tables

/-- `std::map` is walked by key. -/
def keyOrder : WalkOrder UInt64 where
  walk m := m.entries.mergeSort fun e e' => e.1 ≤ e'.1
  perm _ := List.mergeSort_perm _ _

def entriesOrder : WalkOrder (List UInt64) where
  walk m := m.entries
  perm _ := .refl _

theorem old_absent_zero : (0 : UInt64) = 0 → (⟨0, 0, 0⟩ : BlobHandle) = ⟨0, 0, 0⟩ := fun _ => rfl

def bytesOfFileOne (size : UInt64) : StoredIndex where
  fileNumber := 1
  blobHandle := ⟨12, size, 0⟩
  oldFileNumber := 0
  oldBlobHandle := ⟨0, 0, 0⟩
  old_absent := old_absent_zero

def tableWith (size : UInt64) : List UserEntry :=
  [⟨(bytesOfFileOne size).encodeTo, .kEntryBlobIndex⟩, ⟨[], .kEntryPut⟩]

theorem sizeOf_tableWith (size : UInt64) (f : UInt64) :
    sizeOf f (tableWith size) = if f = 1 then size.toNat else 0 := by
  have hparts : newParts (tableWith size) = [(bytesOfFileOne size).toBlobIndex] := by
    rw [newParts, tableWith, List.filterMap_cons, StoredIndex.newPart?]
    rfl
  rw [sizeOf, hparts]
  by_cases hf : f = 1
  · subst hf
    simp [referencedSize, references, bytesOfFileOne]
  · have hnone : ¬(1 : UInt64) = f := fun h => hf h.symm
    simp [referencedSize, references, bytesOfFileOne, hf, hnone]

/-- A compaction drops ten bytes with its input and keeps four of them in its output. -/
def droppedAndKept : List (Bool × List UserEntry) := [(false, tableWith 10), (true, tableWith 4)]

theorem droppedAndKept_exact :
    (valueAt 0 (extractDiffs keyOrder droppedAndKept ∅) 1).toInt = -6 := by
  have hsum : (droppedAndKept.map (signedSize 1)).sum = -6 := by
    simp [droppedAndKept, signedSize, sizeOf_tableWith]
  have htables : ∀ t ∈ droppedAndKept, ∃ size : UInt64, t.2 = tableWith size := by
    intro t ht
    rcases List.mem_pair.mp ht with rfl | rfl
    · exact ⟨10, rfl⟩
    · exact ⟨4, rfl⟩
  have hcount : ∀ t ∈ droppedAndKept, t.2.length < 2 ^ 32 := by
    intro t ht
    obtain ⟨size, htable⟩ := htables t ht
    rw [htable]
    exact show 2 < 2 ^ 32 by decide
  have hsize : ∀ t ∈ droppedAndKept, ∀ f, sizeOf f t.2 < 2 ^ 63 := by
    intro t ht f
    rcases List.mem_pair.mp ht with rfl | rfl
    all_goals
      dsimp only
      rw [sizeOf_tableWith]
      split_ifs <;> decide
  obtain ⟨-, -, hdiff, -⟩ := tableProperties_exact keyOrder entriesOrder hcount hsize
  rw [hdiff 1 (by rw [hsum]; decide) (by rw [hsum]; decide), hsum]

end AegonKV

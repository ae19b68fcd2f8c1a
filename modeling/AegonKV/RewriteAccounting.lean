import AegonKV.GcOutputs
import AegonKV.GroupedFold
import AegonKV.LiveSizeLedger

/-!
# The accounts of `RewriteValidKeyToLSM`

The loop over the queued rewrites adds up the sizes of the records whose rewrite is Busy, by their
output file, and with a bitmap it collects their indices. Both maps are applied afterwards, in the
order of an unordered map: the sizes through a signed difference, the indices through a bitmap that
is OR-ed in.
-/

namespace AegonKV

def Status.isBusy (s : Status) : Bool := s.code == .busy

namespace GcRewrites
open LittleEndian AegonKV InternalKey GroupedFold

/-! ## The loop over the rewrites -/

structure Attempt where
  /-- `IsDropped` of the column family. -/
  isDropped : Bool := false
  isShutingDown : Bool := false
  /-- What `WriteWithCallback` returns. -/
  write : Status := .ok
  deriving DecidableEq

structure WriteBack where
  status : Status := .ok
  dropped : AList fun _ : UInt64 => UInt64 := ∅
  droppedIndex : AList fun _ : UInt64 => List UInt64 := ∅

def addSize (total : UInt64) (index : BlobIndex) : UInt64 := total + index.blobHandle.size

def pushIndex (indexes : List UInt64) (index : BlobIndex) : List UInt64 :=
  indexes ++ [index.blobHandle.index]

def WriteBack.drop (useBitmap : Bool) (w : WriteBack) (index : BlobIndex) : WriteBack :=
  { w with
    dropped := accumulate addSize 0 w.dropped index.fileNumber index
    droppedIndex :=
      if useBitmap then accumulate pushIndex [] w.droppedIndex index.fileNumber index
      else w.droppedIndex }

def writeBack (useBitmap : Bool) (w : WriteBack) : List (Rewrite × Attempt) → WriteBack
  | [] => w
  | (rewrite, attempt) :: queue =>
    if attempt.isDropped then { w with status := .aborted "Column family drop" }
    else if attempt.isShutingDown then { w with status := .shutdownInProgress }
    else
      let w := { w with status := attempt.write }
      if attempt.write.isOk then writeBack useBitmap w queue
      else if attempt.write.isBusy then writeBack useBitmap (w.drop useBitmap rewrite.newBlobIndex) queue
      else w

/-! ## The loop over `dropped` -/

structure DropLoop where
  status : Status
  storage : BlobStorage
  invalidEntryIndexes : UInt64 → BitMap

/-- `SetBit` for every index; an error is only logged. -/
def setInvalid (bm : BitMap) (indexes : List UInt64) : BitMap :=
  indexes.foldl (fun bm index => (bm.setBit index.toNat 1).toOption.getD bm) bm

def updateInvalidEntryIndexes (bm invalid : BitMap) : Status × BitMap :=
  match bm.bitOps .kBitOr invalid with
  | .error s => (s, bm)
  | .ok bm => (.ok, bm)

def dropFile (useBitmap : Bool) (droppedIndex : UInt64 → List UInt64) (l : DropLoop)
    (d : UInt64 × UInt64) : DropLoop :=
  match l.storage.files.lookup d.1 with
  | none => l
  | some file =>
    let storage := (l.storage.setFile d.1 (file.updateLiveDataSize (castInt64 (0 - d.2)))).computeGCScore
    if useBitmap then
      let (s, bm) := updateInvalidEntryIndexes (l.invalidEntryIndexes d.1)
        (setInvalid (.new file.fileEntries.toNat) (droppedIndex d.1))
      ⟨s, storage, Function.update l.invalidEntryIndexes d.1 bm⟩
    else { l with storage := storage }

/-- The order in which a `std::unordered_map` hands out its entries. -/
structure IterationOrder where
  order : (AList fun _ : UInt64 => UInt64) → List (UInt64 × UInt64)
  perm : ∀ m, (order m).Perm (m.entries.map fun e => (e.1, e.2))

/-! ## The function -/

/-- The blob files, with the `invalid_entry_indexes_` of those of the job's column family. -/
structure CfFiles where
  set : BlobFileSet
  invalidEntryIndexes : UInt64 → BitMap

structure WriteBackEnv where
  useBitmap : Bool
  cf : UInt32
  iteration : IterationOrder
  flushWAL : Status

/-- `RewriteValidKeyToLSM` without `gc_offload_`. -/
def rewriteValidKeyToLSM (env : WriteBackEnv) (files : CfFiles) (queue : List (Rewrite × Attempt)) :
    Status × CfFiles :=
  let w := writeBack env.useBitmap {} queue
  let s := if w.status.isBusy then .ok else w.status
  if !s.isOk then (s, files)
  else
    match files.set.columnFamilies.lookup env.cf with
    | none => (env.flushWAL, files)
    | some st =>
      let l := (env.iteration.order w.dropped).foldl
        (dropFile env.useBitmap fun f => valueAt [] w.droppedIndex f) ⟨s, st, files.invalidEntryIndexes⟩
      (if l.status.isOk then env.flushWAL else l.status,
        ⟨files.set.setStorage env.cf l.storage, l.invalidEntryIndexes⟩)

def newBitmaps (bitmaps : UInt64 → BitMap) (outputs : List GcOutput) : UInt64 → BitMap :=
  outputs.foldl (fun bitmaps o =>
    Function.update bitmaps o.fileNumber (.new o.file.fileEntries.toNat)) bitmaps

def batchFinishFiles (cf : UInt32) (outputs : List GcOutput) (io : ManifestIO) (files : CfFiles) :
    Status × CfFiles :=
  match files.set.logAndApply
      (addEditOf cf .kGCOutput (outputs.map fun o => (o.fileNumber, o.file))) io with
  | (s, set) => (s, ⟨set, newBitmaps files.invalidEntryIndexes outputs⟩)

/-! ## What the loop over the rewrites leaves -/

def busyIndexes (queue : List (Rewrite × Attempt)) : List BlobIndex :=
  (queue.filter (·.2.write.isBusy)).map (·.1.newBlobIndex)

theorem isBusy_of_isOk {s : Status} (h : s.isOk) : s.isBusy = false := by
  rw [Status.isOk, beq_iff_eq] at h
  rw [Status.isBusy, h]
  rfl

/-- A loop that comes to its end has tried every rewrite and found it OK or Busy. -/
theorem writeBack_spec {useBitmap : Bool} {w : WriteBack} {queue : List (Rewrite × Attempt)}
    (h : (writeBack useBitmap w queue).status.isOk ∨ (writeBack useBitmap w queue).status.isBusy) :
    (∀ p ∈ queue, p.2.write.isOk ∨ p.2.write.isBusy) ∧
      (writeBack useBitmap w queue).dropped = (busyIndexes queue).foldl
        (fun m index => accumulate addSize 0 m index.fileNumber index) w.dropped ∧
      (useBitmap → (writeBack useBitmap w queue).droppedIndex = (busyIndexes queue).foldl
        (fun m index => accumulate pushIndex [] m index.fileNumber index) w.droppedIndex) := by
  induction queue generalizing w with
  | nil => exact ⟨fun p hp => absurd hp List.not_mem_nil, rfl, fun _ => rfl⟩
  | cons p queue ih =>
      obtain ⟨rewrite, attempt⟩ := p
      rw [writeBack] at h ⊢
      split_ifs at h ⊢ with hdropped hdown hok hbusy
      · simp [Status.isOk, Status.isBusy, Status.aborted] at h
      · simp [Status.isOk, Status.isBusy, Status.shutdownInProgress] at h
      · obtain ⟨htried, hsizes, hindexes⟩ := ih h
        have hskip : busyIndexes ((rewrite, attempt) :: queue) = busyIndexes queue := by
          simp [busyIndexes, isBusy_of_isOk hok]
        rw [hskip]
        exact ⟨List.forall_mem_cons.mpr ⟨Or.inl hok, htried⟩, hsizes, hindexes⟩
      · obtain ⟨htried, hsizes, hindexes⟩ := ih h
        have htake : busyIndexes ((rewrite, attempt) :: queue) =
            rewrite.newBlobIndex :: busyIndexes queue := by
          simp [busyIndexes, hbusy]
        rw [htake]
        refine ⟨List.forall_mem_cons.mpr ⟨Or.inr hbusy, htried⟩, hsizes, fun hbitmap => ?_⟩
        rw [hindexes hbitmap, List.foldl_cons, WriteBack.drop, if_pos hbitmap]
      · simp [hok, hbusy] at h

/-- The sizes add up, as long as the sum fits. -/
theorem toNat_foldl_addSize {indexes : List BlobIndex} {total : UInt64}
    (h : total.toNat + (indexes.map (·.blobHandle.size.toNat)).sum < 2 ^ 64) :
    (indexes.foldl addSize total).toNat =
      total.toNat + (indexes.map (·.blobHandle.size.toNat)).sum := by
  induction indexes generalizing total with
  | nil => rfl
  | cons index indexes ih =>
      rw [List.map_cons, List.sum_cons] at h ⊢
      have hadd : (addSize total index).toNat = total.toNat + index.blobHandle.size.toNat := by
        rw [addSize, UInt64.toNat_add, Nat.mod_eq_of_lt (by omega)]
      rw [List.foldl_cons, ih (by omega), hadd]
      omega

theorem foldl_pushIndex (indexes : List BlobIndex) (pushed : List UInt64) :
    indexes.foldl pushIndex pushed = pushed ++ indexes.map (·.blobHandle.index) := by
  induction indexes generalizing pushed with
  | nil => exact (List.append_nil pushed).symm
  | cons index indexes ih =>
      rw [List.foldl_cons, ih, pushIndex, List.append_assoc, List.map_cons]
      rfl

/-! ## What the loop over `dropped` leaves of one file -/

/-- Bits are only set. -/
theorem bit_setInvalid {bm : BitMap} {indexes : List UInt64}
    (h : ∀ index ∈ indexes, index.toNat ≤ bm.validBits) (j : ℕ) :
    (setInvalid bm indexes).bit j = (bm.bit j || indexes.any fun index => index.toNat = j) ∧
      (setInvalid bm indexes).validBits = bm.validBits := by
  induction indexes generalizing bm with
  | nil => exact ⟨(Bool.or_false _).symm, rfl⟩
  | cons index indexes ih =>
      have hle := h index List.mem_cons_self
      rw [setInvalid, List.foldl_cons]
      cases hset : bm.setBit index.toNat 1 with
      | error e =>
          rw [BitMap.setBit, if_neg (by omega)] at hset
          split_ifs at hset
      | ok bm' =>
          obtain ⟨hvalid, hbit⟩ := BitMap.setBit_spec hset
          obtain ⟨hrest, hrestValid⟩ := @ih bm' fun i hi => by
            rw [hvalid]
            exact h i (List.mem_cons_of_mem _ hi)
          refine ⟨?_, hrestValid.trans hvalid⟩
          refine hrest.trans ?_
          rw [hbit, List.any_cons]
          by_cases hj : j = index.toNat
          · simp [hj]
          · simp [hj, Ne.symm hj]

section DropLoop

variable (useBitmap : Bool) (droppedIndex : UInt64 → List UInt64) {l : DropLoop} {f s : UInt64}
  {file : BlobFileMeta}

theorem dropFile_ne (d : UInt64 × UInt64) (h : f ≠ d.1) :
    (dropFile useBitmap droppedIndex l d).storage.files.lookup f = l.storage.files.lookup f ∧
      (dropFile useBitmap droppedIndex l d).invalidEntryIndexes f = l.invalidEntryIndexes f := by
  rw [dropFile]
  split
  · exact ⟨rfl, rfl⟩
  · split_ifs
    · exact ⟨l.storage.lookup_setFile_ne _ h, Function.update_of_ne h _ _⟩
    · exact ⟨l.storage.lookup_setFile_ne _ h, rfl⟩

theorem dropFile_self (hfile : l.storage.files.lookup f = some file) :
    (dropFile useBitmap droppedIndex l (f, s)).storage.files.lookup f =
        some (file.updateLiveDataSize (castInt64 (0 - s))) ∧
      (useBitmap → (dropFile useBitmap droppedIndex l (f, s)).invalidEntryIndexes f =
        (updateInvalidEntryIndexes (l.invalidEntryIndexes f)
          (setInvalid (.new file.fileEntries.toNat) (droppedIndex f))).2) := by
  rw [dropFile]
  dsimp only
  rw [hfile]
  dsimp only
  split_ifs with hbitmap
  · exact ⟨l.storage.lookup_setFile_self f _, fun _ => Function.update_self f _ _⟩
  · exact ⟨l.storage.lookup_setFile_self f _, fun h => absurd h hbitmap⟩

/-- Files that lost no record. -/
theorem foldl_dropFile_of_notMem {dropped : List (UInt64 × UInt64)} (h : f ∉ dropped.map (·.1)) :
    (dropped.foldl (dropFile useBitmap droppedIndex) l).storage.files.lookup f =
        l.storage.files.lookup f ∧
      (dropped.foldl (dropFile useBitmap droppedIndex) l).invalidEntryIndexes f =
        l.invalidEntryIndexes f := by
  induction dropped generalizing l with
  | nil => exact ⟨rfl, rfl⟩
  | cons d dropped ih =>
      rw [List.map_cons, List.mem_cons, not_or] at h
      have hhead := dropFile_ne useBitmap droppedIndex (l := l) d h.1
      have hrest := ih (l := dropFile useBitmap droppedIndex l d) h.2
      exact ⟨hrest.1.trans hhead.1, hrest.2.trans hhead.2⟩

/-- A file that lost records has its round, and no other round touches it. -/
theorem foldl_dropFile_of_mem {dropped : List (UInt64 × UInt64)} (hn : (dropped.map (·.1)).Nodup)
    (hmem : (f, s) ∈ dropped) (hfile : l.storage.files.lookup f = some file) :
    (dropped.foldl (dropFile useBitmap droppedIndex) l).storage.files.lookup f =
        some (file.updateLiveDataSize (castInt64 (0 - s))) ∧
      (useBitmap → (dropped.foldl (dropFile useBitmap droppedIndex) l).invalidEntryIndexes f =
        (updateInvalidEntryIndexes (l.invalidEntryIndexes f)
          (setInvalid (.new file.fileEntries.toNat) (droppedIndex f))).2) := by
  induction dropped generalizing l with
  | nil => cases hmem
  | cons d dropped ih =>
      rw [List.map_cons] at hn
      obtain ⟨hnot, hn⟩ := List.nodup_cons.mp hn
      rw [List.foldl_cons]
      rcases List.mem_cons.mp hmem with rfl | hmem
      · have hself := dropFile_self useBitmap droppedIndex (s := s) hfile
        have hrest := foldl_dropFile_of_notMem useBitmap droppedIndex
          (l := dropFile useBitmap droppedIndex l (f, s)) hnot
        exact ⟨hrest.1.trans hself.1, fun hbitmap => hrest.2.trans (hself.2 hbitmap)⟩
      · have hne : f ≠ d.1 := fun heq => hnot (heq ▸ List.mem_map_of_mem (f := (·.1)) hmem)
        have hhead := dropFile_ne useBitmap droppedIndex (l := l) d hne
        rw [← hhead.2]
        exact ih hn hmem (hhead.1.trans hfile)

end DropLoop

/-! ## The accounts of an output file -/

/-- Bits for the records that were dropped, in the bitmap of a new file. -/
theorem bit_updateInvalidEntryIndexes {entries : ℕ} {indexes : List UInt64}
    (h : ∀ index ∈ indexes, index.toNat ≤ entries) (j : ℕ) :
    (updateInvalidEntryIndexes (.new entries) (setInvalid (.new entries) indexes)).2.bit j = true ↔
      ∃ index ∈ indexes, index.toNat = j := by
  have hset := @bit_setInvalid (.new entries) indexes h
  rw [updateInvalidEntryIndexes]
  cases hor : (BitMap.new entries).bitOps .kBitOr (setInvalid (.new entries) indexes) with
  | error e =>
      rw [BitMap.bitOps, dif_neg (by rw [(hset j).2]; exact not_not_intro rfl)] at hor
      cases hor
  | ok bm =>
      rw [(BitMap.bitOps_or_spec hor).2, (hset j).1, BitMap.bit_new, Bool.false_or, Bool.false_or]
      simp

def queuedFor (f : UInt64) (queue : List (Rewrite × Attempt)) : List (Rewrite × Attempt) :=
  queue.filter fun p => p.1.newBlobIndex.fileNumber = f

/-- The bytes of records, by the rewrites that name them. -/
def sizeOf (queue : List (Rewrite × Attempt)) : ℕ :=
  (queue.map fun p => p.1.newBlobIndex.blobHandle.size.toNat).sum

theorem sizeOf_split {queue : List (Rewrite × Attempt)}
    (h : ∀ p ∈ queue, p.2.write.isOk ∨ p.2.write.isBusy) :
    sizeOf (queue.filter (·.2.write.isOk)) + sizeOf (queue.filter (·.2.write.isBusy)) =
      sizeOf queue := by
  induction queue with
  | nil => rfl
  | cons p queue ih =>
      have hrest := ih fun q hq => h q (List.mem_cons_of_mem _ hq)
      simp only [sizeOf] at hrest ⊢
      rcases h p List.mem_cons_self with hok | hbusy
      · simp only [List.filter_cons, hok, isBusy_of_isOk hok, List.map_cons, List.sum_cons, if_true,
          Bool.false_eq_true, if_false]
        omega
      · have hok : p.2.write.isOk = false := by
          by_contra hok
          rw [Bool.not_eq_false] at hok
          rw [isBusy_of_isOk hok] at hbusy
          cases hbusy
        simp only [List.filter_cons, hok, hbusy, List.map_cons, List.sum_cons, if_true,
          Bool.false_eq_true, if_false]
        omega

theorem busyIndexes_filter (f : UInt64) (queue : List (Rewrite × Attempt)) :
    (busyIndexes queue).filter (fun index => index.fileNumber = f) =
      busyIndexes (queuedFor f queue) := by
  rw [busyIndexes, List.filter_map, busyIndexes, queuedFor, List.filter_filter, List.filter_filter]
  congr 1
  exact List.filter_congr fun p _ => Bool.and_comm _ _

/-- A file in `dropped`, with the bytes of its Busy rewrites. -/
theorem lookup_dropped {f : UInt64} {queue : List (Rewrite × Attempt)}
    {dropped : AList fun _ : UInt64 => UInt64}
    (hdropped : dropped = (busyIndexes queue).foldl
      (fun m index => accumulate addSize 0 m index.fileNumber index) ∅)
    (hsize : sizeOf (queuedFor f queue) < 2 ^ 63) :
    (valueAt 0 dropped f).toNat = sizeOf ((queuedFor f queue).filter (·.2.write.isBusy)) ∧
      (f ∉ dropped → busyIndexes (queuedFor f queue) = []) := by
  have hle : sizeOf ((queuedFor f queue).filter (·.2.write.isBusy)) ≤ sizeOf (queuedFor f queue) :=
    (List.filter_sublist.map _).sum_le_sum fun _ _ => Nat.zero_le _
  have hbusy : ((busyIndexes (queuedFor f queue)).map (·.blobHandle.size.toNat)).sum =
      sizeOf ((queuedFor f queue).filter (·.2.write.isBusy)) := by
    rw [busyIndexes, List.map_map]
    rfl
  have hvalue : valueAt 0 dropped f = (busyIndexes (queuedFor f queue)).foldl addSize 0 := by
    rw [hdropped, valueAt_foldl_accumulate addSize 0 (·.fileNumber), busyIndexes_filter]
    rfl
  constructor
  · have hfits : (0 : UInt64).toNat +
        ((busyIndexes (queuedFor f queue)).map (·.blobHandle.size.toNat)).sum < 2 ^ 64 := by
      rw [hbusy, UInt64.toNat_zero]
      omega
    rw [hvalue, toNat_foldl_addSize hfits, hbusy, UInt64.toNat_zero, Nat.zero_add]
  · intro hnot
    rw [hdropped, mem_foldl_accumulate addSize 0 (·.fileNumber)] at hnot
    rw [← busyIndexes_filter, List.filter_eq_nil_iff]
    intro index hindex hf
    exact hnot (Or.inr ⟨index, hindex, of_decide_eq_true hf⟩)

theorem IterationOrder.keys_perm (iteration : IterationOrder) (m : AList fun _ : UInt64 => UInt64) :
    ((iteration.order m).map (·.1)).Perm m.keys := by
  have hmap := (iteration.perm m).map (·.1)
  rw [List.map_map] at hmap
  exact hmap

/-- The loop over `dropped`, in whatever order it goes. -/
theorem lookup_dropLoop (useBitmap : Bool) (droppedIndex : UInt64 → List UInt64)
    (iteration : IterationOrder) (dropped : AList fun _ : UInt64 => UInt64) {l : DropLoop}
    {f : UInt64} {file : BlobFileMeta} (hfile : l.storage.files.lookup f = some file) :
    let l' := (iteration.order dropped).foldl (dropFile useBitmap droppedIndex) l
    (f ∈ dropped → l'.storage.files.lookup f =
        some (file.updateLiveDataSize (castInt64 (0 - valueAt 0 dropped f))) ∧
      (useBitmap → l'.invalidEntryIndexes f = (updateInvalidEntryIndexes (l.invalidEntryIndexes f)
        (setInvalid (.new file.fileEntries.toNat) (droppedIndex f))).2)) ∧
    (f ∉ dropped → l'.storage.files.lookup f = some file ∧
      l'.invalidEntryIndexes f = l.invalidEntryIndexes f) := by
  have hkeys := iteration.keys_perm dropped
  constructor
  · intro hmem
    obtain ⟨size, hlookup⟩ := Option.isSome_iff_exists.mp (AList.lookup_isSome.mpr hmem)
    have hentry : (f, size) ∈ iteration.order dropped := (iteration.perm _).mem_iff.mpr
      (List.mem_map.mpr ⟨⟨f, size⟩, AList.mem_lookup_iff.mp hlookup, rfl⟩)
    rw [valueAt, hlookup, Option.getD_some]
    exact foldl_dropFile_of_mem useBitmap droppedIndex
      (hkeys.nodup_iff.mpr (AList.keys_nodup _)) hentry hfile
  · intro hmem
    have hnot : f ∉ (iteration.order dropped).map (·.1) :=
      fun h => hmem (AList.mem_keys.mpr (hkeys.mem_iff.mp h))
    obtain ⟨hsame, hbits⟩ := foldl_dropFile_of_notMem useBitmap droppedIndex (l := l) hnot
    exact ⟨hsame.trans hfile, hbits⟩

/-- The indices of the Busy rewrites of a file. -/
theorem mem_busyIndexes (queue : List (Rewrite × Attempt)) (j : ℕ) :
    (∃ index ∈ (busyIndexes queue).map (·.blobHandle.index), index.toNat = j) ↔
      ∃ p ∈ queue, p.2.write.isBusy ∧ p.1.newBlobIndex.blobHandle.index.toNat = j := by
  simp [busyIndexes, and_assoc]

/-- Taking `size` off the live data. -/
theorem toNat_updateLiveDataSize_sub {file : BlobFileMeta} {size : UInt64}
    (hlive : file.liveDataSize.toNat < 2 ^ 63) (hle : size.toNat ≤ file.liveDataSize.toNat) :
    (file.updateLiveDataSize (castInt64 (0 - size))).liveDataSize.toNat =
      file.liveDataSize.toNat - size.toNat := by
  have hcast : castInt64 (0 - size) = -(size.toNat : ℤ) := by
    have hsize : castInt64 size = size.toNat := castInt64_eq_toNat (by omega)
    have hzero : castInt64 0 = 0 := by decide
    rw [castInt64_sub (by omega) (by omega), hsize, hzero, zero_sub]
  rw [toNat_updateLiveDataSize hlive (show castInt64 (0 - size) ≤ 0 by omega), hcast]
  omega

/-- A call that returns OK has tried all rewrites and had a round for every entry of `dropped`. -/
theorem rewriteValidKeyToLSM_of_isOk {env : WriteBackEnv} {files : CfFiles}
    {queue : List (Rewrite × Attempt)} {st : BlobStorage}
    (hst : files.set.columnFamilies.lookup env.cf = some st)
    (hok : (rewriteValidKeyToLSM env files queue).1.isOk) :
    ((writeBack env.useBitmap {} queue).status.isOk ∨
      (writeBack env.useBitmap {} queue).status.isBusy) ∧
    ∃ s l, l = (env.iteration.order (writeBack env.useBitmap {} queue).dropped).foldl
        (dropFile env.useBitmap fun f => valueAt [] (writeBack env.useBitmap {} queue).droppedIndex f)
        ⟨s, st, files.invalidEntryIndexes⟩ ∧
      (rewriteValidKeyToLSM env files queue).2 =
        ⟨files.set.setStorage env.cf l.storage, l.invalidEntryIndexes⟩ := by
  rw [rewriteValidKeyToLSM] at hok ⊢
  dsimp only at hok ⊢
  split_ifs at hok ⊢ with hbusy hno hno
  · cases hno
  · rw [hst]
    exact ⟨Or.inr hbusy, _, _, rfl, rfl⟩
  · rw [Bool.not_eq_true'] at hno
    rw [hno] at hok
    cases hok
  · rw [hst]
    exact ⟨Or.inl (by simpa using hno), _, _, rfl, rfl⟩

/-- What a call that returns OK leaves of a file that starts with the sizes of all its queued
records. -/
theorem file_rewriteValidKeyToLSM {env : WriteBackEnv} {files : CfFiles}
    {queue : List (Rewrite × Attempt)} {st : BlobStorage} {f : UInt64} {file : BlobFileMeta}
    (hst : files.set.columnFamilies.lookup env.cf = some st) (hfile : st.files.lookup f = some file)
    (hlive : file.liveDataSize.toNat = sizeOf (queuedFor f queue))
    (hsize : file.liveDataSize.toNat < 2 ^ 63)
    (hnew : files.invalidEntryIndexes f = .new file.fileEntries.toNat)
    (hindex : ∀ p ∈ queuedFor f queue,
      p.1.newBlobIndex.blobHandle.index.toNat ≤ file.fileEntries.toNat)
    (hok : (rewriteValidKeyToLSM env files queue).1.isOk) :
    ∃ file', (rewriteValidKeyToLSM env files queue).2.set.fileOf env.cf f = some file' ∧
      file'.liveDataSize.toNat = sizeOf ((queuedFor f queue).filter (·.2.write.isOk)) ∧
      (env.useBitmap → ∀ j, ((rewriteValidKeyToLSM env files queue).2.invalidEntryIndexes f).bit j ↔
        ∃ p ∈ queuedFor f queue, p.2.write.isBusy ∧
          p.1.newBlobIndex.blobHandle.index.toNat = j) := by
  obtain ⟨hdone, s, l, hl, hresult⟩ := rewriteValidKeyToLSM_of_isOk hst hok
  obtain ⟨htried, hdropped, hindexes⟩ := writeBack_spec hdone
  obtain ⟨hvalue, hempty⟩ := lookup_dropped hdropped (hlive ▸ hsize)
  have hsplit := @sizeOf_split (queuedFor f queue)
    fun p hp => htried p (List.mem_of_mem_filter hp)
  have hpushed : env.useBitmap → valueAt [] (writeBack env.useBitmap {} queue).droppedIndex f =
      (busyIndexes (queuedFor f queue)).map (·.blobHandle.index) := by
    intro hbitmap
    rw [hindexes hbitmap, valueAt_foldl_accumulate pushIndex [] (·.fileNumber), busyIndexes_filter,
      foldl_pushIndex]
    rfl
  rw [hresult]
  dsimp only
  rw [files.set.fileOf_setStorage, hl]
  obtain ⟨hlost, hkept⟩ := lookup_dropLoop env.useBitmap
    (fun f => valueAt [] (writeBack env.useBitmap {} queue).droppedIndex f) env.iteration
    (writeBack env.useBitmap {} queue).dropped (l := ⟨s, st, files.invalidEntryIndexes⟩) hfile
  by_cases hmem : f ∈ (writeBack env.useBitmap {} queue).dropped
  · obtain ⟨hround, hbits⟩ := hlost hmem
    refine ⟨_, hround, ?_, fun hbitmap j => ?_⟩
    · rw [toNat_updateLiveDataSize_sub hsize (by omega)]
      omega
    · refine Iff.trans ?_ (mem_busyIndexes (queuedFor f queue) j)
      rw [hbits hbitmap]
      dsimp only
      rw [hnew, hpushed hbitmap]
      refine bit_updateInvalidEntryIndexes (fun index hmem => ?_) j
      obtain ⟨p, hp, -, hpIndex⟩ := (mem_busyIndexes _ index.toNat).mp ⟨index, hmem, rfl⟩
      rw [← hpIndex]
      exact hindex p hp
  · obtain ⟨hsame, hbits⟩ := hkept hmem
    refine ⟨file, hsame, ?_, fun _ j => ?_⟩
    · have hnone := List.map_eq_nil_iff.mp (hempty hmem)
      have hzero : sizeOf ((queuedFor f queue).filter (·.2.write.isBusy)) = 0 := by
        rw [hnone]
        rfl
      omega
    · rw [hbits]
      dsimp only
      rw [hnew, BitMap.bit_new, ← mem_busyIndexes, hempty hmem]
      simp

/-! ## Installed outputs -/

theorem newBitmaps_of_notMem {outputs : List GcOutput} {f : UInt64}
    (h : f ∉ outputs.map (·.fileNumber)) (bitmaps : UInt64 → BitMap) :
    newBitmaps bitmaps outputs f = bitmaps f := by
  induction outputs generalizing bitmaps with
  | nil => rfl
  | cons o outputs ih =>
      rw [List.map_cons, List.mem_cons, not_or] at h
      rw [newBitmaps, List.foldl_cons]
      exact (ih h.2 _).trans (Function.update_of_ne h.1 _ _)

theorem newBitmaps_of_mem {outputs : List GcOutput} (hn : (outputs.map (·.fileNumber)).Nodup)
    {o : GcOutput} (ho : o ∈ outputs) (bitmaps : UInt64 → BitMap) :
    newBitmaps bitmaps outputs o.fileNumber = .new o.file.fileEntries.toNat := by
  induction outputs generalizing bitmaps with
  | nil => cases ho
  | cons output outputs ih =>
      rw [List.map_cons] at hn
      obtain ⟨hnot, hn⟩ := List.nodup_cons.mp hn
      rw [newBitmaps, List.foldl_cons]
      rcases List.mem_cons.mp ho with rfl | ho
      · exact (newBitmaps_of_notMem hnot _).trans (Function.update_self _ _ _)
      · exact ih hn ho _

/-- New files are in the storage as they were made. -/
theorem installed_batchFinishFiles {cf : UInt32} {outputs : List GcOutput} {io : ManifestIO}
    {files : CfFiles} {st : BlobStorage} (hst : files.set.columnFamilies.lookup cf = some st)
    (hok : (batchFinishFiles cf outputs io files).1.isOk) :
    (outputs.map (·.fileNumber)).Nodup ∧
    ∃ st', (batchFinishFiles cf outputs io files).2.set.columnFamilies.lookup cf = some st' ∧
      ∀ o ∈ outputs, st'.files.lookup o.fileNumber = some { o.file with state := .kPendingGC } ∧
        (batchFinishFiles cf outputs io files).2.invalidEntryIndexes o.fileNumber =
          .new o.file.fileEntries.toNat := by
  obtain ⟨hn, st', hst', hfiles⟩ := Lifecycle.lookup_new_outputs hst hok
  rw [List.map_map] at hn
  refine ⟨hn, st', hst', fun o ho => ⟨?_, newBitmaps_of_mem hn ho _⟩⟩
  exact (hfiles (o.fileNumber, o.file) (List.mem_map.mpr ⟨o, ho, rfl⟩)).2

theorem filter_rewrites {o other : GcOutput} :
    other.rewrites.filter (fun rewrite => rewrite.newBlobIndex.fileNumber = o.fileNumber) =
      if other.fileNumber = o.fileNumber then other.rewrites else [] := by
  split_ifs with h
  · rw [List.filter_eq_self]
    intro rewrite hmem
    rw [other.fileNumber_rewrites hmem]
    exact decide_eq_true h
  · rw [List.filter_eq_nil_iff]
    intro rewrite hmem
    rw [other.fileNumber_rewrites hmem]
    simpa using h

theorem filter_flatMap_rewrites {outputs : List GcOutput} (hn : (outputs.map (·.fileNumber)).Nodup)
    {o : GcOutput} (ho : o ∈ outputs) :
    (outputs.flatMap (·.rewrites)).filter (fun rewrite =>
      rewrite.newBlobIndex.fileNumber = o.fileNumber) = o.rewrites := by
  have hother : ∀ (others : List GcOutput), o.fileNumber ∉ others.map (·.fileNumber) →
      (others.flatMap (·.rewrites)).filter (fun rewrite =>
        rewrite.newBlobIndex.fileNumber = o.fileNumber) = [] := by
    intro others hnot
    rw [List.filter_eq_nil_iff]
    intro rewrite hmem hf
    obtain ⟨other, hmemOther, hrewrite⟩ := List.mem_flatMap.mp hmem
    rw [other.fileNumber_rewrites hrewrite] at hf
    exact hnot (List.mem_map.mpr ⟨other, hmemOther, of_decide_eq_true hf⟩)
  induction outputs with
  | nil => cases ho
  | cons output outputs ih =>
      rw [List.map_cons] at hn
      obtain ⟨hnot, hn⟩ := List.nodup_cons.mp hn
      rw [List.flatMap_cons, List.filter_append, filter_rewrites]
      rcases List.mem_cons.mp ho with rfl | ho
      · rw [if_pos rfl, hother outputs hnot, List.append_nil]
      · have hne : output.fileNumber ≠ o.fileNumber :=
          fun heq => hnot (heq ▸ List.mem_map_of_mem (f := (·.fileNumber)) ho)
        rw [if_neg hne, List.nil_append, ih hn ho]

/-- The queue holds the rewrites of an output, in some order. -/
theorem perm_queuedFor {outputs : List GcOutput} (hn : (outputs.map (·.fileNumber)).Nodup)
    (hzero : ∀ o ∈ outputs, o.fileNumber ≠ 0) {inline : List (UInt64 × BlobRec Bytes)}
    {queue : List (Rewrite × Attempt)}
    (hqueue : (queue.map (·.1)).Perm (outputs.flatMap (·.rewrites) ++ inline.map inlineRewrite))
    {o : GcOutput} (ho : o ∈ outputs) : ((queuedFor o.fileNumber queue).map (·.1)).Perm o.rewrites := by
  have hfilter := hqueue.filter fun rewrite => rewrite.newBlobIndex.fileNumber = o.fileNumber
  have hinline : (inline.map inlineRewrite).filter (fun rewrite =>
      rewrite.newBlobIndex.fileNumber = o.fileNumber) = [] := by
    rw [List.filter_eq_nil_iff]
    intro rewrite hmem hf
    obtain ⟨x, -, rfl⟩ := List.mem_map.mp hmem
    exact hzero o ho (of_decide_eq_true hf).symm
  rw [List.filter_append, hinline, List.append_nil, filter_flatMap_rewrites hn ho,
    List.filter_map] at hfilter
  exact hfilter

/-- Once the rewrites are done, an output file has the bytes of the records whose rewrite was OK as
its live data, and in its bitmap the records whose rewrite was Busy. -/
theorem rewriteValidKeyToLSM_accounts {env : WriteBackEnv} {files : CfFiles} {st : BlobStorage}
    {outputs : List GcOutput} {io : ManifestIO} {inline : List (UInt64 × BlobRec Bytes)}
    {queue : List (Rewrite × Attempt)}
    (hst : files.set.columnFamilies.lookup env.cf = some st)
    (hzero : ∀ o ∈ outputs, o.fileNumber ≠ 0)
    (hsize : ∀ o ∈ outputs, o.finished.builder.liveDataSize < 2 ^ 63)
    (hinstall : (batchFinishFiles env.cf outputs io files).1.isOk)
    (hqueue : (queue.map (·.1)).Perm (outputs.flatMap (·.rewrites) ++ inline.map inlineRewrite))
    (hok : (rewriteValidKeyToLSM env (batchFinishFiles env.cf outputs io files).2 queue).1.isOk) :
    ∀ o ∈ outputs, ∃ file,
      (rewriteValidKeyToLSM env (batchFinishFiles env.cf outputs io files).2 queue).2.set.fileOf env.cf
          o.fileNumber = some file ∧
        file.liveDataSize.toNat =
          sizeOf ((queuedFor o.fileNumber queue).filter (·.2.write.isOk)) ∧
        (env.useBitmap → ∀ j, ((rewriteValidKeyToLSM env
            (batchFinishFiles env.cf outputs io files).2 queue).2.invalidEntryIndexes
              o.fileNumber).bit j ↔
          ∃ p ∈ queuedFor o.fileNumber queue, p.2.write.isBusy ∧
            p.1.newBlobIndex.blobHandle.index.toNat = j) := by
  obtain ⟨hn, st', hst', hinstalled⟩ := installed_batchFinishFiles hst hinstall
  intro o ho
  obtain ⟨hfile, hnew⟩ := hinstalled o ho
  have hperm := perm_queuedFor hn hzero hqueue ho
  have hlive := o.liveDataSize_eq (hsize o ho)
  have hstart : o.file.liveDataSize.toNat = sizeOf (queuedFor o.fileNumber queue) := by
    rw [hlive, ← (hperm.map _).sum_nat, List.map_map]
    rfl
  have hbound : o.file.liveDataSize.toNat < 2 ^ 63 :=
    (Nat.mod_le _ _).trans_lt (hsize o ho)
  refine file_rewriteValidKeyToLSM hst' hfile hstart hbound hnew (fun p hp => ?_) hok
  exact o.index_le (hsize o ho) (hperm.mem_iff.mp (List.mem_map_of_mem hp))

/-- An output file without a dictionary and with two records. -/
def firstOutput : GcOutput :=
  ⟨2, { smallTrainOptions with maxDictBytes := 0 }, fun _ _ => none,
    [(1, ⟨⟨12, 13, 0⟩, [7], [70]⟩), (1, ⟨⟨25, 13, 1⟩, [8], [80]⟩)], by decide⟩

def twoOutputs : List GcOutput :=
  [firstOutput, ⟨3, { smallTrainOptions with maxDictBytes := 0 }, fun _ _ => none,
    [(1, ⟨⟨38, 14, 2⟩, [9], [90, 91]⟩)], by decide⟩]

def busySecond : List (Rewrite × Attempt) :=
  (twoOutputs.flatMap (·.rewrites)).zip [{}, { write := .busy }, {}]

def bitmapEnv : WriteBackEnv :=
  ⟨true, 0, ⟨fun m => m.entries.map fun e => (e.1, e.2), fun _ => .refl _⟩, .ok⟩

theorem rewriteValidKeyToLSM_accounts_busySecond : ∃ file,
    (rewriteValidKeyToLSM bitmapEnv
      (batchFinishFiles 0 twoOutputs ioOk ⟨freshSet, fun _ => .new 0⟩).2 busySecond).2.set.fileOf 0
        firstOutput.fileNumber = some file ∧
      file.liveDataSize.toNat =
        sizeOf ((queuedFor firstOutput.fileNumber busySecond).filter (·.2.write.isOk)) ∧
      (bitmapEnv.useBitmap → ∀ j, ((rewriteValidKeyToLSM bitmapEnv
          (batchFinishFiles 0 twoOutputs ioOk ⟨freshSet, fun _ => .new 0⟩).2
            busySecond).2.invalidEntryIndexes firstOutput.fileNumber).bit j ↔
        ∃ p ∈ queuedFor firstOutput.fileNumber busySecond, p.2.write.isBusy ∧
          p.1.newBlobIndex.blobHandle.index.toNat = j) := by
  have hqueue : (busySecond.map (·.1)).Perm
      (twoOutputs.flatMap (·.rewrites) ++ [].map inlineRewrite) := by
    have hfst : busySecond.map (·.1) = twoOutputs.flatMap (·.rewrites) :=
      List.map_fst_zip (by decide)
    rw [hfst, List.map_nil, List.append_nil]
  exact rewriteValidKeyToLSM_accounts rfl (by decide) (by decide) (by decide) hqueue
    (by decide) firstOutput List.mem_cons_self

end GcRewrites
end AegonKV

import AegonKV.BlobStorage
import AegonKV.Status
import Mathlib.Data.List.Sort
import Mathlib.Data.List.TakeWhile

/-!
# Errors on the way through a GC job

`BuildIterator` opens the inputs of a job, a merge iterator walks over their records by key, and
`DoRunGC` takes its answer from the status the merge iterator shows in the end. Opening, initialising
and reading may each fail for any input and at any record.
-/

namespace AegonKV.GcJob
open LittleEndian AegonKV

variable {κ : Type} [LinearOrder κ]

structure Input (κ : Type) where
  fileNumber : UInt64
  /-- What `NewBlobFileReader` returns. -/
  openStatus : Status
  /-- What `BlobFileIterator::Init` returns. -/
  initStatus : Status
  /-- The records of the file, each with the status of reading and decoding it. -/
  records : List (BlobRec κ × Status)
  /-- The storage has the file, and it is not obsolete. -/
  found : Bool

structure BlobFileIterator (κ : Type) where
  fileNumber : UInt64
  initStatus : Status
  /-- The records from `iterate_offset_` on. -/
  rest : List (BlobRec κ × Status)
  status : Status
  valid : Bool
  curBlobRecord : Option (BlobRec κ)

section

omit [LinearOrder κ]

def BlobFileIterator.new (input : Input κ) : BlobFileIterator κ :=
  ⟨input.fileNumber, input.initStatus, input.records, .ok, false, none⟩

/-- A failed read sets the status and leaves `valid_` and the current record as they are. -/
def BlobFileIterator.prefetchAndGet (it : BlobFileIterator κ) : BlobFileIterator κ :=
  match it.rest with
  | [] => { it with valid := false }
  | (r, status) :: rest =>
    if status.isOk then
      { it with rest := rest, status := status, valid := true, curBlobRecord := some r }
    else { it with status := status }

def BlobFileIterator.seekToFirst (it : BlobFileIterator κ) : BlobFileIterator κ :=
  if it.initStatus.isOk then { it with status := .ok }.prefetchAndGet
  else { it with status := it.initStatus }

def BlobFileIterator.isValid (it : BlobFileIterator κ) : Bool :=
  it.valid && it.status.isOk

end

/-- `BlobFileIterComparator`: the smaller key comes first. -/
def BlobFileIterator.before (a b : BlobFileIterator κ) : Prop :=
  ∀ r ∈ a.curBlobRecord, ∀ q ∈ b.curBlobRecord, r.key ≤ q.key

instance : DecidableRel (BlobFileIterator.before (κ := κ)) := fun a b =>
  inferInstanceAs (Decidable (∀ r ∈ a.curBlobRecord, ∀ q ∈ b.curBlobRecord, r.key ≤ q.key))

structure BlobFileMergeIterator (κ : Type) where
  status : Status
  blobFileIterators : List (BlobFileIterator κ)
  minHeap : List (BlobFileIterator κ)
  current : Option (BlobFileIterator κ)

namespace BlobFileMergeIterator

/-- A child goes into the heap while it stands on a record. -/
def push (heap : List (BlobFileIterator κ)) (it : BlobFileIterator κ) :
    List (BlobFileIterator κ) :=
  if it.status.isOk && it.isValid then heap.orderedInsert BlobFileIterator.before it else heap

def seekToFirst (m : BlobFileMergeIterator κ) : BlobFileMergeIterator κ :=
  match (m.blobFileIterators.map BlobFileIterator.seekToFirst).foldl push m.minHeap with
  | [] => { m with status := .aborted "No iterator is valid" }
  | top :: heap => { m with current := some top, minHeap := heap }

def next (m : BlobFileMergeIterator κ) : BlobFileMergeIterator κ :=
  match m.current with
  | none => m
  | some it =>
    match push m.minHeap it.prefetchAndGet with
    | [] => { m with current := none, minHeap := [] }
    | top :: heap => { m with current := some top, minHeap := heap }

omit [LinearOrder κ] in
def getStatus (m : BlobFileMergeIterator κ) : Status :=
  match m.current with
  | none => m.status
  | some it => if it.status.isOk then m.status else it.status

omit [LinearOrder κ] in
def isValid (m : BlobFileMergeIterator κ) : Bool :=
  match m.current with
  | none => false
  | some it => m.getStatus.isOk && it.isValid && it.status.isOk

end BlobFileMergeIterator

/-- A job, with what one iteration of the loop leaves in `s`: a shutdown, a failed lookup, a failed
write or nothing. -/
structure Job (κ : Type) where
  inputs : List (Input κ)
  useBitmap : Bool
  /-- The column family still has its storage. -/
  storageFound : Bool
  process : ℕ → Status

namespace Job

omit [LinearOrder κ] in
/-- The first loop of `BuildIterator`: the list and `s` when it stops. -/
def openInputs : List (Input κ) → List (Input κ) × Status
  | [] => ([], .ok)
  | input :: inputs =>
    if input.openStatus.isOk then
      let (list, s) := openInputs inputs
      (input :: list, s)
    else ([], input.openStatus)

omit [LinearOrder κ] in
def buildIterator (job : Job κ) : Status × Option (BlobFileMergeIterator κ) :=
  let (list, s) := openInputs job.inputs
  let iter : BlobFileMergeIterator κ := ⟨.ok, list.map .new, [], none⟩
  if job.useBitmap then
    if !job.storageFound then
      (.notFound "BlobGC::BuildIterator: Column family not Found.", none)
    else if list.any fun input => !input.found then
      (.notFound "BlobGC::BuildIterator: File not Found.", none)
    else
      -- `s` is assigned by every `CopyInvalidEntryIndexesTo`, which is asserted to succeed
      let s := if list.isEmpty then s else .ok
      (s, if s.isOk then some iter else none)
  else (s, if s.isOk then some iter else none)

/-- The loop of `DoRunGC` from iteration `i` on, with what it has visited so far. -/
def loop (process : ℕ → Status) : ℕ → ℕ → BlobFileMergeIterator κ → List (UInt64 × BlobRec κ) →
    Status × BlobFileMergeIterator κ × List (UInt64 × BlobRec κ)
  | 0, _, m, visited => (.ok, m, visited)
  | fuel + 1, i, m, visited =>
    match m.current with
    | none => (.ok, m, visited)
    | some it =>
      if m.isValid then
        let visited := visited ++ it.curBlobRecord.toList.map fun r => (it.fileNumber, r)
        if (process i).isOk then loop process fuel (i + 1) m.next visited
        else (process i, m, visited)
      else (.ok, m, visited)

omit [LinearOrder κ] in
def fuel (job : Job κ) : ℕ :=
  (job.inputs.map fun input => input.records.length).sum + 1

/-- The status `DoRunGC` returns, and the records the merge iterator yielded. -/
def doRunGC (job : Job κ) : Status × List (UInt64 × BlobRec κ) :=
  match job.buildIterator with
  | (s, iter) =>
    if !s.isOk then (s, [])
    else
      match iter with
      | none => (.aborted "Build iterator for gc failed", [])
      | some iter =>
        let (s, iter, visited) := loop job.process job.fuel 0 iter.seekToFirst []
        if iter.getStatus.isOk && s.isOk then (s, visited)
        else if !iter.getStatus.isOk then (iter.getStatus, visited)
        else (s, visited)

end Job

/-! ## What can be read -/

section

omit [LinearOrder κ]

def readable : List (BlobRec κ × Status) → List (BlobRec κ)
  | [] => []
  | (r, status) :: rest => if status.isOk then r :: readable rest else []

def Input.yields (input : Input κ) : List (UInt64 × BlobRec κ) :=
  if input.initStatus.isOk then (readable input.records).map fun r => (input.fileNumber, r) else []

/-- What a child in the heap has still to give, its current record first. -/
def BlobFileIterator.pending (it : BlobFileIterator κ) : List (UInt64 × BlobRec κ) :=
  (it.curBlobRecord.toList ++ readable it.rest).map fun r => (it.fileNumber, r)

structure BlobFileIterator.Ready (it : BlobFileIterator κ) : Prop where
  status : it.status.isOk = true
  valid : it.valid = true
  record : ∃ r, it.curBlobRecord = some r

/-- After reading on, a child stands on its next record or has nothing more to give. -/
theorem BlobFileIterator.prefetchAndGet_cases (it : BlobFileIterator κ) :
    (it.prefetchAndGet.Ready ∧
      it.prefetchAndGet.pending = (readable it.rest).map fun r => (it.fileNumber, r)) ∨
    ((it.prefetchAndGet.status.isOk && it.prefetchAndGet.isValid) = false ∧
      readable it.rest = []) := by
  unfold BlobFileIterator.prefetchAndGet
  split
  · rename_i hrest
    exact Or.inr ⟨by simp [BlobFileIterator.isValid], by simp [hrest, readable]⟩
  · rename_i r status rest hrest
    split_ifs with hok
    · refine Or.inl ⟨⟨hok, rfl, r, rfl⟩, ?_⟩
      simp [BlobFileIterator.pending, hrest, readable, hok]
    · exact Or.inr ⟨by simp [hok], by simp [hrest, readable, hok]⟩

theorem BlobFileIterator.seekToFirst_cases (input : Input κ) :
    ((BlobFileIterator.new input).seekToFirst.Ready ∧
      (BlobFileIterator.new input).seekToFirst.pending = input.yields) ∨
    (((BlobFileIterator.new input).seekToFirst.status.isOk &&
      (BlobFileIterator.new input).seekToFirst.isValid) = false ∧ input.yields = []) := by
  unfold BlobFileIterator.seekToFirst
  split_ifs with hinit
  · have hinit' : input.initStatus.isOk = true := hinit
    have h := BlobFileIterator.prefetchAndGet_cases
      { BlobFileIterator.new input with status := .ok }
    simpa [Input.yields, hinit', BlobFileIterator.new] using h
  · have hinit' : ¬input.initStatus.isOk = true := hinit
    exact Or.inr ⟨by simp [hinit], by simp [Input.yields, hinit']⟩

end

/-! ## The merge iterator -/

theorem push_ready (heap : List (BlobFileIterator κ)) {it : BlobFileIterator κ} (h : it.Ready) :
    (BlobFileMergeIterator.push heap it).Perm (it :: heap) := by
  have hok : (it.status.isOk && it.isValid) = true := by
    simp [BlobFileIterator.isValid, h.status, h.valid]
  rw [BlobFileMergeIterator.push, if_pos hok]
  exact List.perm_orderedInsert _ _ _

theorem push_of_not (heap : List (BlobFileIterator κ)) {it : BlobFileIterator κ}
    (h : (it.status.isOk && it.isValid) = false) : BlobFileMergeIterator.push heap it = heap := by
  rw [BlobFileMergeIterator.push, if_neg (by simp [h])]

/-- The heap after the children are positioned. -/
theorem foldl_push_spec (list : List (Input κ)) (heap : List (BlobFileIterator κ))
    (hheap : ∀ it ∈ heap, it.Ready) :
    (∀ it ∈ ((list.map BlobFileIterator.new).map BlobFileIterator.seekToFirst).foldl
      BlobFileMergeIterator.push heap, it.Ready) ∧
    ((((list.map BlobFileIterator.new).map BlobFileIterator.seekToFirst).foldl
      BlobFileMergeIterator.push heap).flatMap BlobFileIterator.pending).Perm
      (heap.flatMap BlobFileIterator.pending ++ list.flatMap Input.yields) := by
  induction list generalizing heap with
  | nil => exact ⟨hheap, by simp⟩
  | cons input list ih =>
      simp only [List.map_cons, List.foldl_cons, List.flatMap_cons]
      rcases BlobFileIterator.seekToFirst_cases input with ⟨hready, hpend⟩ | ⟨hnot, hnil⟩
      · have hperm := push_ready heap hready
        have hall : ∀ it ∈ BlobFileMergeIterator.push heap
            (BlobFileIterator.new input).seekToFirst, it.Ready := by
          intro it hit
          rcases List.mem_cons.mp (hperm.mem_iff.mp hit) with rfl | hit
          · exact hready
          · exact hheap it hit
        obtain ⟨hr, hp⟩ := ih _ hall
        refine ⟨hr, hp.trans ?_⟩
        have hflat := hperm.flatMap_right BlobFileIterator.pending
        rw [List.flatMap_cons, hpend] at hflat
        refine (hflat.append_right _).trans ?_
        rw [← List.append_assoc]
        exact List.perm_append_comm.append_right _
      · rw [push_of_not heap hnot, hnil, List.nil_append]
        exact ih heap hheap

/-- The children that still have records, the current one first. -/
def BlobFileMergeIterator.pool (m : BlobFileMergeIterator κ) : List (BlobFileIterator κ) :=
  m.current.toList ++ m.minHeap

def BlobFileMergeIterator.pending (m : BlobFileMergeIterator κ) : List (UInt64 × BlobRec κ) :=
  m.pool.flatMap BlobFileIterator.pending

/-- The iterator between two iterations: it is at its end, or on the record of a child. -/
structure BlobFileMergeIterator.Merging (m : BlobFileMergeIterator κ) : Prop where
  status : m.status = .ok
  ready : ∀ it ∈ m.pool, it.Ready
  atEnd : m.current = none → m.minHeap = []

omit [LinearOrder κ] in
theorem merging_of_heap {m : BlobFileMergeIterator κ} (hs : m.status = .ok)
    {heap : List (BlobFileIterator κ)} (hready : ∀ it ∈ heap, it.Ready) :
    BlobFileMergeIterator.Merging { m with current := heap.head?, minHeap := heap.tail } ∧
      BlobFileMergeIterator.pending { m with current := heap.head?, minHeap := heap.tail } =
        heap.flatMap BlobFileIterator.pending := by
  cases heap with
  | nil => exact ⟨⟨hs, by simp [BlobFileMergeIterator.pool], fun _ => rfl⟩, rfl⟩
  | cons it heap => exact ⟨⟨hs, hready, fun hc => (by cases hc)⟩, rfl⟩

theorem next_spec {m : BlobFileMergeIterator κ} (h : m.Merging) {it : BlobFileIterator κ}
    (hcur : m.current = some it) :
    m.next.Merging ∧ ∃ r, it.curBlobRecord = some r ∧
      m.pending.Perm ((it.fileNumber, r) :: m.next.pending) := by
  have hpool : m.pool = it :: m.minHeap := by simp [BlobFileMergeIterator.pool, hcur]
  have hit := h.ready it (by simp [hpool])
  have hheap : ∀ other ∈ m.minHeap, other.Ready := fun other ho => h.ready other (by simp [hpool, ho])
  obtain ⟨r, hr⟩ := hit.record
  have hnext : m.next = { m with
      current := (BlobFileMergeIterator.push m.minHeap it.prefetchAndGet).head?
      minHeap := (BlobFileMergeIterator.push m.minHeap it.prefetchAndGet).tail } := by
    unfold BlobFileMergeIterator.next
    simp only [hcur]
    split
    · rename_i hp
      rw [hp]
      rfl
    · rename_i top heap hp
      rw [hp]
      rfl
  have hpend : m.pending = (it.fileNumber, r) ::
      ((readable it.rest).map fun q => (it.fileNumber, q)) ++
        m.minHeap.flatMap BlobFileIterator.pending := by
    simp [BlobFileMergeIterator.pending, hpool, BlobFileIterator.pending, hr]
  rw [hnext]
  rcases it.prefetchAndGet_cases with ⟨hready, hp⟩ | ⟨hnot, hnil⟩
  · have hperm := push_ready m.minHeap hready
    have hall : ∀ other ∈ BlobFileMergeIterator.push m.minHeap it.prefetchAndGet, other.Ready := by
      intro other ho
      rcases List.mem_cons.mp (hperm.mem_iff.mp ho) with rfl | ho
      · exact hready
      · exact hheap other ho
    obtain ⟨hm, heq⟩ := merging_of_heap h.status hall
    refine ⟨hm, r, hr, ?_⟩
    have hflat := hperm.flatMap_right BlobFileIterator.pending
    rw [List.flatMap_cons, hp] at hflat
    rw [heq, hpend]
    exact hflat.symm.cons _
  · rw [push_of_not m.minHeap hnot]
    obtain ⟨hm, heq⟩ := merging_of_heap h.status hheap
    refine ⟨hm, r, hr, ?_⟩
    rw [heq, hpend, hnil]
    exact List.Perm.refl _

/-! ## The loop -/

namespace Job

omit [LinearOrder κ] in
theorem getStatus_merging {m : BlobFileMergeIterator κ} (h : m.Merging) : m.getStatus = .ok := by
  unfold BlobFileMergeIterator.getStatus
  split
  · exact h.status
  · rename_i it hcur
    rw [if_pos (h.ready it (by simp [BlobFileMergeIterator.pool, hcur])).status]
    exact h.status

omit [LinearOrder κ] in
theorem isValid_merging {m : BlobFileMergeIterator κ} (h : m.Merging) {it : BlobFileIterator κ}
    (hcur : m.current = some it) : m.isValid = true := by
  have hit := h.ready it (by simp [BlobFileMergeIterator.pool, hcur])
  simp only [BlobFileMergeIterator.isValid, hcur, getStatus_merging h,
    BlobFileIterator.isValid, hit.status, hit.valid]
  rfl

/-- The loop stops at the first iteration that fails, and otherwise visits every pending record. -/
theorem loop_spec (process : ℕ → Status) (fuel i : ℕ) {m : BlobFileMergeIterator κ}
    (visited : List (UInt64 × BlobRec κ)) (h : m.Merging) (hfuel : m.pending.length < fuel) :
    ((∃ j < m.pending.length, (process (i + j)).isOk = false) ∧
      (loop process fuel i m visited).1.isOk = false) ∨
    ((∀ j < m.pending.length, (process (i + j)).isOk = true) ∧
      (loop process fuel i m visited).1 = .ok ∧
      (loop process fuel i m visited).2.1.getStatus = .ok ∧
      ∃ rest, (loop process fuel i m visited).2.2 = visited ++ rest ∧ rest.Perm m.pending) := by
  induction fuel generalizing i m visited with
  | zero => omega
  | succ fuel ih =>
      cases hcur : m.current with
      | none =>
          have hnil : m.pending = [] := by
            simp [BlobFileMergeIterator.pending, BlobFileMergeIterator.pool, hcur, h.atEnd hcur]
          have hloop : loop process (fuel + 1) i m visited = (.ok, m, visited) := by
            simp only [loop, hcur]
          rw [hloop, hnil]
          exact Or.inr ⟨by simp, rfl, getStatus_merging h, [], by simp, List.Perm.refl _⟩
      | some it =>
          obtain ⟨hnext, r, hr, hperm⟩ := next_spec h hcur
          have hlen : m.pending.length = m.next.pending.length + 1 := by
            simpa using hperm.length_eq
          by_cases hok : (process i).isOk = true
          · have hloop : loop process (fuel + 1) i m visited =
                loop process fuel (i + 1) m.next (visited ++ [(it.fileNumber, r)]) := by
              simp only [loop, hcur, isValid_merging h hcur, hok, if_true, hr, Option.toList_some,
                List.map_cons, List.map_nil]
            rw [hloop]
            rcases ih (i + 1) (visited ++ [(it.fileNumber, r)]) hnext (by omega) with
              ⟨⟨j, hj, hbad⟩, hres⟩ | ⟨hgood, hs, hst, rest, hvis, hrest⟩
            · exact Or.inl ⟨⟨j + 1, by omega, by rwa [← Nat.add_assoc, Nat.add_right_comm]⟩, hres⟩
            · refine Or.inr ⟨fun j hj => ?_, hs, hst, (it.fileNumber, r) :: rest, ?_, ?_⟩
              · cases j with
                | zero => exact hok
                | succ j =>
                    rw [← Nat.add_assoc, Nat.add_right_comm]
                    exact hgood j (by omega)
              · rw [hvis, List.append_assoc, List.singleton_append]
              · exact (hrest.cons _).trans hperm.symm
          · have hbad : (process i).isOk = false := by simpa using hok
            have hloop : (loop process (fuel + 1) i m visited).1 = process i := by
              simp only [loop, hcur, isValid_merging h hcur, hbad, if_true, Bool.false_eq_true,
                if_false]
            rw [hloop]
            exact Or.inl ⟨⟨0, by omega, hbad⟩, hbad⟩

/-! ## The whole job -/

omit [LinearOrder κ] in
def opened (job : Job κ) : List (Input κ) :=
  job.inputs.takeWhile fun input => input.openStatus.isOk

omit [LinearOrder κ] in
theorem openInputs_spec (inputs : List (Input κ)) :
    (openInputs inputs).1 = inputs.takeWhile (fun input => input.openStatus.isOk) ∧
      ((openInputs inputs).2.isOk = true ↔ ∀ input ∈ inputs, input.openStatus.isOk = true) := by
  induction inputs with
  | nil => simp [openInputs]
  | cons input inputs ih =>
      by_cases hok : input.openStatus.isOk = true
      · simp [openInputs, hok, ih]
      · simp [openInputs, hok]

/-- `BuildIterator` fails for a reason it looks at: an open error without the bitmap, a storage or an
input that is gone with it. -/
def BuildNoticed (job : Job κ) : Prop :=
  (job.useBitmap = false ∧ ∃ input ∈ job.inputs, input.openStatus.isOk = false) ∨
  (job.useBitmap = true ∧
    (job.storageFound = false ∨ ∃ input ∈ job.opened, input.found = false))

/-- The job fails for a reason it looks at: in `BuildIterator`, because no opened input has a first
record, or in an iteration of the loop. -/
def Noticed (job : Job κ) : Prop :=
  job.BuildNoticed ∨ (∀ input ∈ job.opened, input.yields = []) ∨
    ∃ i < (job.opened.flatMap Input.yields).length, (job.process i).isOk = false

/-- Every input is opened, initialised and read to its end. -/
def Clean (job : Job κ) : Prop :=
  ∀ input ∈ job.inputs, input.openStatus.isOk = true ∧ input.initStatus.isOk = true ∧
    ∀ x ∈ input.records, x.2.isOk = true

/-- A job that returns OK has yielded every record of every input. -/
def NoRecordLost (job : Job κ) : Prop :=
  job.doRunGC.1.isOk = true → job.Clean ∧ job.doRunGC.2.Perm
    (job.inputs.flatMap fun input => input.records.map fun x => (input.fileNumber, x.1))

def iterator (job : Job κ) : BlobFileMergeIterator κ :=
  ⟨.ok, job.opened.map .new, [], none⟩

omit [LinearOrder κ] in
theorem buildIterator_spec (job : Job κ) :
    ((job.BuildNoticed ∨ job.opened = []) ∧ job.buildIterator.1.isOk = false) ∨
    (¬job.BuildNoticed ∧ ∃ s, s.isOk = true ∧ job.buildIterator = (s, some job.iterator)) := by
  obtain ⟨hlist, hs⟩ := openInputs_spec job.inputs
  have hopened : (openInputs job.inputs).1 = job.opened := hlist
  cases hb : job.useBitmap with
  | false =>
      have hbuild : job.buildIterator = ((openInputs job.inputs).2,
          if (openInputs job.inputs).2.isOk then some job.iterator else none) := by
        simp [buildIterator, hb, iterator, hopened]
      by_cases hok : (openInputs job.inputs).2.isOk = true
      · refine Or.inr ⟨?_, _, hok, by rw [hbuild, if_pos hok]⟩
        rintro (⟨-, input, hin, hbad⟩ | ⟨hc, -⟩)
        · rw [hs.mp hok input hin] at hbad
          cases hbad
        · simp [hb] at hc
      · refine Or.inl ⟨Or.inl (Or.inl ⟨hb, ?_⟩), by rw [hbuild]; simpa using hok⟩
        by_contra hall
        refine hok (hs.mpr fun input hin => ?_)
        by_contra hbad
        exact hall ⟨input, hin, by simpa using hbad⟩
  | true =>
      by_cases hst : job.storageFound = true
      swap
      · have hst : job.storageFound = false := by simpa using hst
        exact Or.inl ⟨Or.inl (Or.inr ⟨hb, Or.inl hst⟩), by simp [buildIterator, hb, hst, Status.notFound, Status.isOk]⟩
      by_cases hfound : (job.opened.any fun input => !input.found) = true
      · refine Or.inl ⟨Or.inl (Or.inr ⟨hb, Or.inr (by simpa using hfound)⟩), ?_⟩
        simp only [buildIterator, hb, hst, hopened, hfound]
        rfl
      have hnot : ¬job.BuildNoticed := by
        rintro (⟨hc, -⟩ | ⟨-, hc | ⟨input, hin, hbad⟩⟩)
        · simp [hb] at hc
        · simp [hst] at hc
        · exact hfound (List.any_eq_true.mpr ⟨input, hin, by simp [hbad]⟩)
      by_cases hempty : job.opened = []
      · have hbuild : job.buildIterator = ((openInputs job.inputs).2,
            if (openInputs job.inputs).2.isOk then some job.iterator else none) := by
          simp [buildIterator, hb, hst, hopened, hempty, iterator]
        by_cases hok : (openInputs job.inputs).2.isOk = true
        · exact Or.inr ⟨hnot, _, hok, by rw [hbuild, if_pos hok]⟩
        · exact Or.inl ⟨Or.inr hempty, by rw [hbuild]; simpa using hok⟩
      · refine Or.inr ⟨hnot, .ok, rfl, ?_⟩
        have hne : job.opened.isEmpty = false := by simpa using hempty
        simp only [buildIterator, hb, hst, hopened, hfound, hne]
        rfl

omit [LinearOrder κ] in
theorem readable_length_le (records : List (BlobRec κ × Status)) :
    (readable records).length ≤ records.length := by
  induction records with
  | nil => exact le_rfl
  | cons x records ih =>
      obtain ⟨r, status⟩ := x
      simp only [readable]
      split_ifs
      · exact Nat.succ_le_succ ih
      · exact Nat.zero_le _

omit [LinearOrder κ] in
theorem yields_length_lt_fuel (job : Job κ) :
    (job.opened.flatMap Input.yields).length < job.fuel := by
  have hle : ∀ input : Input κ, input.yields.length ≤ input.records.length := by
    intro input
    unfold Input.yields
    split_ifs
    · rw [List.length_map]
      exact readable_length_le _
    · exact Nat.zero_le _
  have hsum : ∀ inputs : List (Input κ),
      ((inputs.takeWhile fun input => input.openStatus.isOk).flatMap Input.yields).length ≤
        (inputs.map fun input => input.records.length).sum := by
    intro inputs
    induction inputs with
    | nil => exact le_rfl
    | cons input inputs ih =>
        rw [List.takeWhile_cons]
        split_ifs
        · rw [List.flatMap_cons, List.length_append, List.map_cons, List.sum_cons]
          exact Nat.add_le_add (hle input) ih
        · exact Nat.zero_le _
  exact Nat.lt_succ_of_le (hsum job.inputs)

/-- The merge iterator stands on a record if any opened input has one. -/
theorem seekToFirst_spec (job : Job κ) :
    (job.opened.flatMap Input.yields = [] ∧ job.iterator.seekToFirst.current = none ∧
      job.iterator.seekToFirst.status.isOk = false) ∨
    (job.opened.flatMap Input.yields ≠ [] ∧ job.iterator.seekToFirst.Merging ∧
      job.iterator.seekToFirst.pending.Perm (job.opened.flatMap Input.yields)) := by
  obtain ⟨hready, hperm⟩ := foldl_push_spec job.opened [] (by simp)
  unfold BlobFileMergeIterator.seekToFirst
  simp only [iterator]
  split
  · rename_i hheap
    rw [hheap] at hperm
    exact Or.inl ⟨by simpa using hperm.symm, rfl, rfl⟩
  · rename_i top heap hheap
    rw [hheap] at hperm hready
    refine Or.inr ⟨fun hnil => ?_, ⟨rfl, hready, fun hc => (by cases hc)⟩, hperm⟩
    rw [hnil] at hperm
    obtain ⟨r, hr⟩ := (hready top (by simp)).record
    have := hperm.length_eq
    simp [BlobFileIterator.pending, hr] at this

/-- Unnoticed failures do not keep a job from returning OK, and noticed ones do. -/
theorem doRunGC_spec (job : Job κ) :
    (job.Noticed ∧ job.doRunGC.1.isOk = false) ∨
    (¬job.Noticed ∧ job.doRunGC.1.isOk = true ∧
      job.doRunGC.2.Perm (job.opened.flatMap Input.yields)) := by
  rcases job.buildIterator_spec with ⟨hnoticed, hbad⟩ | ⟨hnot, s, hs, hbuild⟩
  · refine Or.inl ⟨?_, ?_⟩
    · exact hnoticed.imp id fun h => Or.inl (by simp [h])
    · simp only [doRunGC, hbad]
      exact hbad
  have hrun : job.doRunGC =
      (let (s, iter, visited) := loop job.process job.fuel 0 job.iterator.seekToFirst []
        if iter.getStatus.isOk && s.isOk then (s, visited)
        else if !iter.getStatus.isOk then (iter.getStatus, visited)
        else (s, visited)) := by
    simp only [doRunGC, hbuild, hs]
    rfl
  rcases job.seekToFirst_spec with ⟨hnil, hcur, hst⟩ | ⟨hne, hm, hperm⟩
  · have hnoticed : job.Noticed := by
      refine Or.inr (Or.inl fun input hin => ?_)
      exact List.flatMap_eq_nil_iff.mp hnil input hin
    have hloop : loop job.process job.fuel 0 job.iterator.seekToFirst [] =
        (.ok, job.iterator.seekToFirst, []) := by
      simp only [fuel, loop, hcur]
    have hget : job.iterator.seekToFirst.getStatus.isOk = false := by
      simpa only [BlobFileMergeIterator.getStatus, hcur] using hst
    refine Or.inl ⟨hnoticed, ?_⟩
    rw [hrun, hloop]
    simp [hget]
  · have hlen := hperm.length_eq
    rcases loop_spec job.process job.fuel 0 [] hm (hlen ▸ job.yields_length_lt_fuel) with
      ⟨⟨j, hj, hbad⟩, hres⟩ | ⟨hgood, hok, hst, rest, hvis, hrest⟩
    · refine Or.inl ⟨Or.inr (Or.inr ⟨j, hlen ▸ hj, by simpa using hbad⟩), ?_⟩
      rw [hrun]
      cases hget : (loop job.process job.fuel 0 job.iterator.seekToFirst []).2.1.getStatus.isOk with
      | true => simp [hget, hres]
      | false => simp [hget]
    · refine Or.inr ⟨?_, ?_, ?_⟩
      · rintro (h | hnil | ⟨i, hi, hbad⟩)
        · exact hnot h
        · exact hne (List.flatMap_eq_nil_iff.mpr hnil)
        · have := hgood i (hlen ▸ hi)
          simp [hbad] at this
      · rw [hrun]
        simp [hst, hok]
      · rw [hrun]
        simp only [hst, hok, Status.isOk_ok, Bool.and_self, if_true, hvis, List.nil_append]
        exact hrest.trans hperm

omit [LinearOrder κ] in
theorem yields_of_clean {input : Input κ} (hinit : input.initStatus.isOk = true)
    (h : ∀ x ∈ input.records, x.2.isOk = true) :
    input.yields = input.records.map fun x => (input.fileNumber, x.1) := by
  have hread : ∀ records : List (BlobRec κ × Status), (∀ x ∈ records, x.2.isOk = true) →
      readable records = records.map (·.1) := by
    intro records hall
    induction records with
    | nil => rfl
    | cons x records ih =>
        obtain ⟨r, status⟩ := x
        have hx : status.isOk = true := hall (r, status) (by simp)
        simp only [readable, hx, if_true, List.map_cons]
        rw [ih fun y hy => hall y (List.mem_cons_of_mem _ hy)]
  simp [Input.yields, hinit, hread _ h]

omit [LinearOrder κ] in
/-- Without an error the opened inputs give all their records. -/
theorem Clean.yields {job : Job κ} (h : job.Clean) : job.opened.flatMap Input.yields =
    job.inputs.flatMap fun input => input.records.map fun x => (input.fileNumber, x.1) := by
  have hopened : job.opened = job.inputs :=
    List.takeWhile_eq_self_iff.mpr fun input hin => (h input hin).1
  rw [hopened]
  refine List.flatMap_congr fun input hin => ?_
  exact yields_of_clean (h input hin).2.1 (h input hin).2.2

/-- A job loses no record exactly if it meets no failure, or one that it notices. A failure while a
child is initialised or read goes unnoticed as long as some other child has a record, and so does a
failed open of an input after the first when the bitmap is used. -/
theorem noRecordLost_iff (job : Job κ) : job.NoRecordLost ↔ job.Noticed ∨ job.Clean := by
  constructor
  · intro h
    rcases job.doRunGC_spec with ⟨hnoticed, -⟩ | ⟨-, hok, -⟩
    · exact Or.inl hnoticed
    · exact Or.inr (h hok).1
  · rintro hcase hok
    rcases job.doRunGC_spec with ⟨-, hbad⟩ | ⟨hnot, -, hperm⟩
    · rw [hbad] at hok
      cases hok
    · have hclean : job.Clean := hcase.resolve_left hnot
      exact ⟨hclean, hperm.trans (List.Perm.of_eq hclean.yields)⟩

/-- Two inputs with a record each; the record of the second cannot be decoded. -/
def undecodableRecord : Job ℕ where
  inputs := [⟨1, .ok, .ok, [(⟨⟨12, 20, 0⟩, 0, [1]⟩, .ok)], true⟩,
    ⟨2, .ok, .ok, [(⟨⟨12, 20, 0⟩, 1, [5]⟩, .corruption "BlobRecord" "checksum mismatch")], true⟩]
  useBitmap := false
  storageFound := true
  process := fun _ => .ok

/-- The job returns OK without the record of the second input. -/
theorem undecodableRecord_lost : ¬undecodableRecord.NoRecordLost := by
  intro h
  have hok : undecodableRecord.doRunGC.1.isOk = true := rfl
  have hbad := ((h hok).1 _ (List.mem_cons_of_mem _ List.mem_cons_self)).2.2 _ List.mem_cons_self
  cases hbad

end Job

end AegonKV.GcJob

import AegonKV.BlobFormat
import AegonKV.DBIterRuns
import Mathlib.Logic.Function.Basic

/-!
# Titan's iterator

`TitanDBIterator` moves the iterator of the base DB and reads the blob that the entry refers to. Readers
of blob files are kept from their first use on. In every run it shows what `Get` at its snapshot
returns, or the error of reading the blob.

The files of the storage do not change under the iterator. Statistics and the logs are left out.
-/

namespace AegonKV.TitanDBIterator
open LittleEndian OrderedScan TransitionSystem
open CompactionIterator (look)
open DBIter (Options Ordered visible step_moves)
open DBIter.State (Stands)

/-- `BlobFileReader::Get` of an open file, for the value of the record. -/
structure Reader where
  get : BlobHandle → Except Status Bytes
  error_of_get : ∀ handle s, get handle = .error s → s.isOk = false

structure Storage where
  findFile : UInt64 → Bool
  /-- `BlobFileCache::FindFile`. -/
  openFile : UInt64 → Except Status Reader
  error_of_openFile : ∀ fileNumber s, openFile fileNumber = .error s → s.isOk = false

namespace Storage

def get (storage : Storage) (index : BlobIndex) : Except Status Bytes :=
  if storage.findFile index.fileNumber then
    match storage.openFile index.fileNumber with
    | .error s => .error s
    | .ok reader => reader.get index.blobHandle
  else .error (.corruption ("Missing blob file: " ++ toString index.fileNumber.toNat))

def newPrefetcher (storage : Storage) (fileNumber : UInt64) : Except Status Reader :=
  if storage.findFile fileNumber then storage.openFile fileNumber
  else .error (.corruption ("Missing blob wfile: " ++ toString fileNumber.toNat))

/-- `TitanDBImpl::GetImpl` behind the read of the base DB. -/
def getImpl (storage : Storage) : Option (ValueType × Bytes) → Except Status Bytes
  | none => .error .notFound
  | some (type, value) =>
    if type = .kTypeBlobIndex then
      match BlobIndex.decodeFrom value with
      | .error s => .error s
      | .ok (index, _) => storage.get index
    else .ok value

end Storage

structure State (κ : Type) where
  iter : DBIter.State κ
  status : Status
  /-- The value of `record_`. -/
  record : Bytes
  /-- The prefetchers in `files_`. -/
  files : UInt64 → Option Reader

namespace State
variable {κ : Type}

def valid (st : State κ) : Bool := st.iter.valid && st.status.isOk

def getStatus (st : State κ) : Status := if st.status.isOk then st.iter.status else st.status

def key (st : State κ) : κ := st.iter.key

def value (keyOnly : Bool) (st : State κ) : Bytes :=
  if keyOnly then [] else if !st.iter.isBlob then st.iter.value else st.record

def init (iter : DBIter.State κ) : State κ := ⟨iter, .ok, [], fun _ => none⟩

def prefetcher (storage : Storage) (st : State κ) (fileNumber : UInt64) : Except Status Reader :=
  match st.files fileNumber with
  | some reader => .ok reader
  | none => storage.newPrefetcher fileNumber

def getBlobValue (storage : Storage) (st : State κ) : State κ :=
  match decodeInto BlobIndex.decodeFrom st.iter.value with
  | .error s => { st with status := s }
  | .ok index =>
    match st.prefetcher storage index.fileNumber with
    | .error s => { st with status := s }
    | .ok reader =>
      let st := { st with files := Function.update st.files index.fileNumber (some reader) }
      match reader.get index.blobHandle with
      | .error s => { st with status := s }
      | .ok value => { st with status := .ok, record := value }

/-- A call behind the move of the inner iterator. -/
def moved (keyOnly : Bool) (storage : Storage) (st : State κ) (iter : DBIter.State κ) : State κ :=
  let st := { st with iter := iter }
  -- `ShouldGetBlobValue`
  if !iter.valid || !iter.isBlob || keyOnly then { st with status := iter.status }
  else st.getBlobValue storage

variable [LinearOrder κ]

/-- A call; `Next` and `Prev` assert that the iterator is valid. -/
def step (o : Options κ) (keyOnly : Bool) (storage : Storage) (st : State κ) : Op κ → Option (State κ)
  | .seekToFirst => some (st.moved keyOnly storage (st.iter.seekToFirst o))
  | .seekToLast => some (st.moved keyOnly storage (st.iter.seekToLast o))
  | .seek target => some (st.moved keyOnly storage (st.iter.seek o target))
  | .seekForPrev target => some (st.moved keyOnly storage (st.iter.seekForPrev o target))
  | .next => if st.valid then some (st.moved keyOnly storage (st.iter.next o)) else none
  | .prev => if st.valid then some (st.moved keyOnly storage (st.iter.prev o)) else none

end State

variable {κ : Type} {keyOnly : Bool} {storage : Storage} {st : State κ}

/-! ## The value of an entry -/

theorem error_of_decodeFrom {src : Bytes} {s : Status} (h : BlobIndex.decodeFrom src = .error s) :
    s.isOk = false := by
  rw [BlobIndex.decodeFrom] at h
  split at h
  · exact Except.error.inj h ▸ rfl
  split at h
  · exact Except.error.inj h ▸ rfl
  split_ifs at h
  split at h
  · exact Except.error.inj h ▸ rfl
  split at h
  · exact Except.error.inj h ▸ rfl
  cases h

theorem decodeInto_of_error {src : Bytes} {s : Status} (h : BlobIndex.decodeFrom src = .error s) :
    decodeInto BlobIndex.decodeFrom src = .error s := by
  rw [decodeInto, h]
  rfl

theorem decodeInto_of_ok {src rest : Bytes} {index : BlobIndex}
    (h : BlobIndex.decodeFrom src = .ok (index, rest)) :
    decodeInto BlobIndex.decodeFrom src =
      if !rest.isEmpty then .error (.corruption "redundant bytes when decoding blob file") else .ok index := by
  rw [decodeInto, h]
  rfl

theorem error_of_decodeInto {src : Bytes} {s : Status}
    (h : decodeInto BlobIndex.decodeFrom src = .error s) : s.isOk = false := by
  cases hdecode : BlobIndex.decodeFrom src with
  | error s' =>
      rw [decodeInto_of_error hdecode] at h
      exact Except.error.inj h ▸ error_of_decodeFrom hdecode
  | ok decoded =>
      rw [decodeInto_of_ok hdecode] at h
      split_ifs at h
      exact Except.error.inj h ▸ rfl

/-- `DecodeInto` accepts no more than `DecodeFrom`. -/
theorem decodeFrom_of_decodeInto {src : Bytes} {index : BlobIndex}
    (h : decodeInto BlobIndex.decodeFrom src = .ok index) :
    ∃ rest, BlobIndex.decodeFrom src = .ok (index, rest) := by
  cases hdecode : BlobIndex.decodeFrom src with
  | error s =>
      rw [decodeInto_of_error hdecode] at h
      cases h
  | ok decoded =>
      rw [decodeInto_of_ok hdecode] at h
      split_ifs at h
      obtain rfl := Except.ok.inj h
      exact ⟨decoded.2, rfl⟩

namespace Storage

theorem error_of_newPrefetcher {fileNumber : UInt64} {s : Status}
    (h : storage.newPrefetcher fileNumber = .error s) : s.isOk = false := by
  rw [newPrefetcher] at h
  split_ifs at h
  · exact storage.error_of_openFile _ _ h
  · exact Except.error.inj h ▸ rfl

def blobValue (storage : Storage) (value : Bytes) : Except Status Bytes :=
  (decodeInto BlobIndex.decodeFrom value).bind fun index =>
    (storage.newPrefetcher index.fileNumber).bind fun reader => reader.get index.blobHandle

def shown (storage : Storage) (keyOnly : Bool) (found : ValueType × Bytes) : Except Status Bytes :=
  if keyOnly then .ok []
  else if found.1 = .kTypeBlobIndex then storage.blobValue found.2
  else .ok found.2

theorem error_of_blobValue {value : Bytes} {s : Status} (h : storage.blobValue value = .error s) :
    s.isOk = false := by
  rw [blobValue] at h
  cases hdecode : decodeInto BlobIndex.decodeFrom value with
  | error s' =>
      rw [hdecode] at h
      exact Except.error.inj h ▸ error_of_decodeInto hdecode
  | ok index =>
      rw [hdecode, Except.bind] at h
      cases hreader : storage.newPrefetcher index.fileNumber with
      | error s' =>
          rw [hreader] at h
          exact Except.error.inj h ▸ error_of_newPrefetcher hreader
      | ok reader =>
          rw [hreader] at h
          exact reader.error_of_get _ _ h

/-- `Get` finds the blob that the iterator finds. -/
theorem get_of_blobValue {value v : Bytes} {index : BlobIndex}
    (hdecode : decodeInto BlobIndex.decodeFrom value = .ok index) (h : storage.blobValue value = .ok v) :
    storage.get index = .ok v := by
  rw [blobValue, hdecode, Except.bind, newPrefetcher] at h
  rw [get]
  split_ifs at h ⊢ with hfile
  · cases hopen : storage.openFile index.fileNumber with
    | error s =>
        rw [hopen] at h
        cases h
    | ok reader =>
        rw [hopen] at h
        exact h
  · cases h

/-- A value that the iterator shows is the one that `Get` returns. -/
theorem getImpl_of_shown {found : ValueType × Bytes} {v : Bytes} (h : storage.shown false found = .ok v) :
    storage.getImpl (some found) = .ok v := by
  rw [shown, if_neg Bool.false_ne_true] at h
  change (if found.1 = .kTypeBlobIndex then _ else _) = _
  by_cases htype : found.1 = .kTypeBlobIndex
  · rw [if_pos htype] at h ⊢
    cases hdecode : decodeInto BlobIndex.decodeFrom found.2 with
    | error s =>
        rw [blobValue, hdecode] at h
        cases h
    | ok index =>
        obtain ⟨rest, hfrom⟩ := decodeFrom_of_decodeInto hdecode
        rw [hfrom]
        exact get_of_blobValue hdecode h
  · rw [if_neg htype] at h ⊢
    exact h

end Storage

/-! ## One call -/

def Kept (storage : Storage) (st : State κ) : Prop :=
  ∀ fileNumber reader, st.files fileNumber = some reader → storage.newPrefetcher fileNumber = .ok reader

theorem Kept.prefetcher (h : Kept storage st) (fileNumber : UInt64) :
    st.prefetcher storage fileNumber = storage.newPrefetcher fileNumber := by
  rw [State.prefetcher]
  cases hfile : st.files fileNumber with
  | none => rfl
  | some reader => exact (h fileNumber reader hfile).symm

def Loaded (st : State κ) : Except Status Bytes → Prop
  | .ok value => st.status = .ok ∧ st.record = value
  | .error s => st.status = s

theorem getBlobValue_spec (h : Kept storage st) : Kept storage (st.getBlobValue storage) ∧
    (st.getBlobValue storage).iter = st.iter ∧
    Loaded (st.getBlobValue storage) (storage.blobValue st.iter.value) := by
  rw [State.getBlobValue, Storage.blobValue]
  cases decodeInto BlobIndex.decodeFrom st.iter.value with
  | error s => exact ⟨h, rfl, rfl⟩
  | ok index =>
      rw [Except.bind]
      dsimp only
      rw [h.prefetcher]
      cases hreader : storage.newPrefetcher index.fileNumber with
      | error s => exact ⟨h, rfl, rfl⟩
      | ok reader =>
          rw [Except.bind]
          dsimp only
          have hkept : Kept storage
              { st with files := Function.update st.files index.fileNumber (some reader) } := by
            intro fileNumber kept hfile
            by_cases hsame : fileNumber = index.fileNumber
            · obtain rfl := hsame
              dsimp only at hfile
              rw [Function.update_self] at hfile
              exact Option.some.inj hfile ▸ hreader
            · dsimp only at hfile
              rw [Function.update_of_ne hsame] at hfile
              exact h fileNumber kept hfile
          cases reader.get index.blobHandle with
          | error s => exact ⟨hkept, rfl, rfl⟩
          | ok value => exact ⟨hkept, rfl, rfl, rfl⟩

def Shows (keyOnly : Bool) (st : State κ) : Except Status Bytes → Prop
  | .ok value => st.valid = true ∧ st.getStatus = .ok ∧ st.value keyOnly = value
  | .error s => st.valid = false ∧ st.getStatus = s

theorem shows_of_loaded {read : Except Status Bytes} (h : Loaded st read) (hvalid : st.iter.valid = true)
    (hok : st.iter.status = .ok) (hblob : st.iter.isBlob = true) (herror : ∀ s, read = .error s → s.isOk = false) :
    Shows false st read := by
  cases read with
  | ok value =>
      obtain ⟨hstatus, hrecord⟩ := h
      refine ⟨?_, ?_, ?_⟩
      · rw [State.valid, hvalid, hstatus]
        rfl
      · rw [State.getStatus, hstatus]
        exact hok
      · rw [State.value, if_neg Bool.false_ne_true, hblob]
        exact hrecord
  | error s =>
      have hs : st.status = s := h
      have hfail : st.status.isOk = false := hs ▸ herror s rfl
      refine ⟨?_, ?_⟩
      · rw [State.valid, hfail, Bool.and_false]
      · rw [State.getStatus, hfail, if_neg Bool.false_ne_true, hs]

section

variable [LinearOrder κ] {o : Options κ} {entries : List (Kv κ)} {iter : DBIter.State κ} {current : Option κ}

/-- Where the calls have brought the iterator, and what it shows there. -/
structure Showing (o : Options κ) (keyOnly : Bool) (storage : Storage) (entries : List (Kv κ))
    (st : State κ) (current : Option κ) : Prop where
  nothing : current = none → st.valid = false ∧ st.getStatus = .ok
  key : ∀ k, current = some k → st.key = k
  shows : ∀ k found, current = some k → look o.sequence k entries = some found →
    Shows keyOnly st (storage.shown keyOnly found)

structure Placed (o : Options κ) (keyOnly : Bool) (storage : Storage) (entries : List (Kv κ))
    (st : State κ) (current : Option κ) : Prop where
  inner : DBIter.Placed o entries st.iter current
  kept : Kept storage st
  showing : Showing o keyOnly storage entries st current

/-- Without a blob to read. -/
theorem showing_of_status (h : Stands o entries st.iter current) (hstatus : st.status = st.iter.status)
    (hread : (!st.iter.valid || !st.iter.isBlob || keyOnly) = true) :
    Showing o keyOnly storage entries st current := by
  have hok : st.status = .ok := hstatus.trans h.status
  have hgetStatus : st.getStatus = .ok := by
    rw [State.getStatus, hok]
    exact h.status
  refine ⟨?_, h.key, ?_⟩
  · rintro rfl
    refine ⟨?_, hgetStatus⟩
    rw [State.valid, h.valid]
    rfl
  · rintro k found rfl hlook
    have hvalid : st.iter.valid = true := h.valid
    obtain rfl : found = (st.iter.type, st.iter.value) := Option.some.inj (hlook.symm.trans (h.entry k rfl))
    have houter : st.valid = true := by
      rw [State.valid, hvalid, hok]
      rfl
    rw [Storage.shown]
    cases keyOnly with
    | true => exact ⟨houter, hgetStatus, rfl⟩
    | false =>
        rw [hvalid, Bool.not_true, Bool.false_or, Bool.or_false, Bool.not_eq_true'] at hread
        have htype : ¬st.iter.type = .kTypeBlobIndex := by
          rw [DBIter.State.type, hread, if_neg Bool.false_ne_true]
          decide
        rw [if_neg Bool.false_ne_true, if_neg htype]
        refine ⟨houter, hgetStatus, ?_⟩
        rw [State.value, if_neg Bool.false_ne_true, hread]
        rfl

theorem moved_placed (h : Kept storage st) (hinner : DBIter.Placed o entries iter current) :
    Placed o keyOnly storage entries (st.moved keyOnly storage iter) current := by
  have hstands := hinner.stands
  rw [State.moved]
  dsimp only
  by_cases hread : (!iter.valid || !iter.isBlob || keyOnly) = true
  · rw [if_pos hread]
    exact ⟨hinner, h, showing_of_status hstands rfl hread⟩
  · rw [if_neg hread]
    rw [Bool.not_eq_true, Bool.or_eq_false_iff, Bool.or_eq_false_iff, Bool.not_eq_false',
      Bool.not_eq_false'] at hread
    obtain ⟨⟨hvalid, hblob⟩, rfl⟩ := hread
    have hkept : Kept storage { st with iter := iter } := h
    obtain ⟨hkept', hiter, hloaded⟩ := getBlobValue_spec hkept
    generalize State.getBlobValue storage { st with iter := iter } = st' at hkept' hiter hloaded
    have hshows := shows_of_loaded hloaded (hiter ▸ hvalid) (hiter ▸ hstands.status) (hiter ▸ hblob)
      fun s hs => Storage.error_of_blobValue hs
    refine ⟨hiter ▸ hinner, hkept', ?_, ?_, ?_⟩
    · rintro rfl
      exact absurd (hstands.valid.symm.trans hvalid) Bool.false_ne_true
    · rintro k rfl
      rw [State.key, hiter]
      exact hstands.key k rfl
    · rintro k found rfl hlook
      obtain rfl : found = (iter.type, iter.value) := Option.some.inj (hlook.symm.trans (hstands.entry k rfl))
      have htype : iter.type = .kTypeBlobIndex := by rw [DBIter.State.type, if_pos hblob]
      rw [Storage.shown, if_neg Bool.false_ne_true, if_pos htype]
      exact hshows

/-! ## Runs -/

/-- A call is a call of the inner iterator. -/
theorem step_inner {op : Op κ} {next : State κ} (h : st.step o keyOnly storage op = some next) :
    ∃ iter, st.iter.step o op = some iter ∧ next = st.moved keyOnly storage iter := by
  have hinner : st.valid = true → st.iter.valid = true := fun hvalid =>
    (Bool.and_eq_true_iff.mp hvalid).1
  cases op with
  | next =>
      rw [State.step, Option.ite_none_right_eq_some] at h
      exact ⟨_, if_pos (hinner h.1), (Option.some.inj h.2).symm⟩
  | prev =>
      rw [State.step, Option.ite_none_right_eq_some] at h
      exact ⟨_, if_pos (hinner h.1), (Option.some.inj h.2).symm⟩
  | _ => exact ⟨_, rfl, (Option.some.inj h).symm⟩

theorem placed_step (hentries : Ordered entries) {op : Op κ} {next : State κ}
    (h : Placed o keyOnly storage entries st current) (hstep : st.step o keyOnly storage op = some next) :
    ∃ r, Moves (visible o entries) current op r ∧ Placed o keyOnly storage entries next r := by
  obtain ⟨iter, hiter, rfl⟩ := step_inner hstep
  obtain ⟨r, hmoves, hinner⟩ := step_moves hentries h.inner hiter
  exact ⟨r, hmoves, moved_placed h.kept hinner⟩

theorem placed_init {savedKey : κ} :
    Placed o keyOnly storage entries (State.init (DBIter.State.init entries savedKey)) none := by
  have hinner : DBIter.Placed o entries (DBIter.State.init entries savedKey) none := DBIter.placed_init
  exact ⟨hinner, (fun _ _ hfile => nomatch hfile), showing_of_status hinner.stands rfl rfl⟩

theorem Showing.getImpl (h : Showing o false storage entries st current) {k : κ} (hcurrent : current = some k)
    (hvisible : k ∈ visible o entries) (hvalid : st.valid = true) :
    storage.getImpl (look o.sequence k entries) = .ok (st.value false) := by
  obtain ⟨found, hlook⟩ := Option.isSome_iff_exists.mp hvisible.2.2
  have hshows := h.shows k found hcurrent hlook
  rw [hlook]
  cases hread : storage.shown false found with
  | error s =>
      rw [hread] at hshows
      exact absurd (hshows.1.symm.trans hvalid) Bool.false_ne_true
  | ok value =>
      rw [hread] at hshows
      obtain ⟨-, -, rfl⟩ := hshows
      exact Storage.getImpl_of_shown hread

/-- Whatever is called, the iterator is where the calls have brought a cursor on the visible keys, and
shows the value that `Get` returns there, or the error of reading the blob. -/
theorem run_reads (hentries : Ordered entries) {savedKey : κ} {ops : List (Op κ)}
    (hr : run (State.step o keyOnly storage) (State.init (DBIter.State.init entries savedKey)) ops = some st) :
    ∃ current, Runs (Moves (visible o entries)) none ops current ∧
      Showing o keyOnly storage entries st current ∧
      (keyOnly = false → st.valid = true →
        storage.getImpl (look o.sequence st.key entries) = .ok (st.value keyOnly)) := by
  have hmeets : Meets (State.step o keyOnly storage) (fun _ _ => True)
      (State.init (DBIter.State.init entries savedKey)) ops := meets_of_forall (fun _ _ => trivial) _ _
  have hruns : ∃ current, Runs (Moves (visible o entries)) none ops current ∧
      Placed o keyOnly storage entries st current := by
    refine run_simulated (R := Placed o keyOnly storage entries) ?_ placed_init hmeets hr
    exact fun _ _ _ _ h _ hstep => placed_step hentries h hstep
  obtain ⟨current, hruns, hplaced⟩ := hruns
  refine ⟨current, hruns, hplaced.showing, ?_⟩
  rintro rfl hvalid
  cases hcurrent : current with
  | none => exact absurd ((hplaced.showing.nothing hcurrent).1.symm.trans hvalid) Bool.false_ne_true
  | some k =>
      rw [hplaced.showing.key k hcurrent]
      exact hplaced.showing.getImpl hcurrent (hplaced.inner.mem k hcurrent) hvalid

/-! ## Reads determine scans -/

/-- What a user gets from two iterators is the same. -/
structure Agree (keyOnly : Bool) (st st' : State κ) : Prop where
  status : st.getStatus = st'.getStatus
  valid : st.valid = st'.valid
  key : st.valid = true → st.key = st'.key
  value : st.valid = true → st.value keyOnly = st'.value keyOnly

/-- Two databases with the same bounds of a scan where each key shows the same. -/
structure SameReads (keyOnly : Bool) (o o' : Options κ) (storage storage' : Storage)
    (entries entries' : List (Kv κ)) : Prop where
  lower : o'.iterateLowerBound = o.iterateLowerBound
  upper : o'.iterateUpperBound = o.iterateUpperBound
  reads : ∀ k, (look o'.sequence k entries').map (storage'.shown keyOnly) =
    (look o.sequence k entries).map (storage.shown keyOnly)

variable {o' : Options κ} {storage' : Storage} {entries' : List (Kv κ)} {st' : State κ}

theorem SameReads.visible_eq (h : SameReads keyOnly o o' storage storage' entries entries') :
    visible o' entries' = visible o entries := by
  refine DBIter.visible_congr h.lower h.upper fun k => ?_
  have hsome := congrArg Option.isSome (h.reads k)
  rwa [Option.isSome_map, Option.isSome_map] at hsome

omit [LinearOrder κ] in
theorem agree_of_invalid (hvalid : st.valid = false) (hvalid' : st'.valid = false)
    (hstatus : st.getStatus = st'.getStatus) : Agree keyOnly st st' := by
  have hnot : st.valid ≠ true := hvalid ▸ Bool.false_ne_true
  exact ⟨hstatus, hvalid.trans hvalid'.symm, fun hc => absurd hc hnot, fun hc => absurd hc hnot⟩

omit [LinearOrder κ] in
theorem agree_of_shows {read : Except Status Bytes} (hkey : st.key = st'.key) (h : Shows keyOnly st read)
    (h' : Shows keyOnly st' read) : Agree keyOnly st st' := by
  cases read with
  | ok value =>
      obtain ⟨hvalid, hstatus, hvalue⟩ := h
      obtain ⟨hvalid', hstatus', hvalue'⟩ := h'
      exact ⟨hstatus.trans hstatus'.symm, hvalid.trans hvalid'.symm, fun _ => hkey,
        fun _ => hvalue.trans hvalue'.symm⟩
  | error s => exact agree_of_invalid h.1 h'.1 (h.2.trans h'.2.symm)

theorem SameReads.agree (h : SameReads keyOnly o o' storage storage' entries entries')
    (hst : Placed o keyOnly storage entries st current)
    (hst' : Placed o' keyOnly storage' entries' st' current) : Agree keyOnly st st' := by
  cases hcurrent : current with
  | none =>
      obtain ⟨hvalid, hstatus⟩ := hst.showing.nothing hcurrent
      obtain ⟨hvalid', hstatus'⟩ := hst'.showing.nothing hcurrent
      exact agree_of_invalid hvalid hvalid' (hstatus.trans hstatus'.symm)
  | some k =>
      obtain ⟨found, hlook⟩ := Option.isSome_iff_exists.mp (hst.inner.mem k hcurrent).2.2
      obtain ⟨found', hlook'⟩ := Option.isSome_iff_exists.mp (hst'.inner.mem k hcurrent).2.2
      have hread := h.reads k
      rw [hlook, hlook', Option.map_some, Option.map_some] at hread
      have hshows' := hst'.showing.shows k found' hcurrent hlook'
      rw [Option.some.inj hread] at hshows'
      exact agree_of_shows ((hst.showing.key k hcurrent).trans (hst'.showing.key k hcurrent).symm)
        (hst.showing.shows k found hcurrent hlook) hshows'

theorem step_enabled (o' : Options κ) (storage' : Storage) {op : Op κ} {next : State κ}
    (hvalid : st.valid = st'.valid) (hstep : st.step o keyOnly storage op = some next) :
    ∃ next', st'.step o' keyOnly storage' op = some next' := by
  cases op with
  | next =>
      rw [State.step, Option.ite_none_right_eq_some] at hstep
      exact ⟨_, if_pos (hvalid.symm.trans hstep.1)⟩
  | prev =>
      rw [State.step, Option.ite_none_right_eq_some] at hstep
      exact ⟨_, if_pos (hvalid.symm.trans hstep.1)⟩
  | _ => exact ⟨_, rfl⟩

/-- Databases that show the same for each key show the same in every scan, however their versions,
blobs and iterators differ. -/
theorem run_determined (hentries : Ordered entries) (hentries' : Ordered entries')
    (hsame : SameReads keyOnly o o' storage storage' entries entries') {savedKey savedKey' : κ}
    {ops : List (Op κ)}
    (hr : run (State.step o keyOnly storage) (State.init (DBIter.State.init entries savedKey)) ops = some st) :
    ∃ st', run (State.step o' keyOnly storage') (State.init (DBIter.State.init entries' savedKey')) ops =
        some st' ∧ Agree keyOnly st st' := by
  let R : State κ → State κ → Prop := fun s t => ∃ current,
    Placed o keyOnly storage entries s current ∧ Placed o' keyOnly storage' entries' t current
  have hinit : R (State.init (DBIter.State.init entries savedKey))
      (State.init (DBIter.State.init entries' savedKey')) := ⟨none, placed_init, placed_init⟩
  have hsteps : ∀ s t op next, R s t → State.step o keyOnly storage s op = some next →
      ∃ next', State.step o' keyOnly storage' t op = some next' ∧ R next next' := by
    rintro s t op next ⟨current, hs, ht⟩ hstep
    obtain ⟨next', hstep'⟩ := step_enabled o' storage' (hsame.agree hs ht).valid hstep
    obtain ⟨r, hmoves, hnext⟩ := placed_step hentries hs hstep
    obtain ⟨r', hmoves', hnext'⟩ := placed_step hentries' ht hstep'
    rw [hsame.visible_eq] at hmoves'
    obtain rfl : r = r' := hmoves.unique hmoves'
    exact ⟨next', hstep', r, hnext, hnext'⟩
  obtain ⟨st', hr', current, hst, hst'⟩ := run_answered hsteps hinit hr
  exact ⟨st', hr', hsame.agree hst hst'⟩

end

section

/-- File 7 has one record, at offset 0. -/
def oneFile : Storage where
  findFile fileNumber := fileNumber == 7
  openFile _ := .ok {
    get := fun handle => if handle.offset = 0 then .ok [42] else .error (.corruption "BlobRecord")
    error_of_get := fun handle s h => by
      split_ifs at h
      exact Except.error.inj h ▸ rfl }
  error_of_openFile _ _ h := nomatch h

/-- A key with a blob, an inline one and one whose blob is missing. -/
def twoBlobs : List (Kv ℕ) :=
  [⟨1, 4, .kTypeBlobIndex, [1, 7, 0, 10, 0]⟩, ⟨2, 3, .kTypeValue, [5]⟩,
    ⟨3, 2, .kTypeBlobIndex, [1, 8, 0, 10, 0]⟩]

def stepping : Options ℕ where
  sequence := 9
  maxSkip := 8

theorem twoBlobs_ordered : Ordered twoBlobs where
  sorted := by
    change twoBlobs.Pairwise fun a b =>
      a.userKey < b.userKey ∨ a.userKey = b.userKey ∧ b.sequence < a.sequence
    decide +kernel
  bounded := by decide +kernel
  noMerge := by decide +kernel

theorem run_reads_twoBlobs : ∃ st, run (State.step stepping false oneFile)
      (State.init (DBIter.State.init twoBlobs 0)) [.seek 2, .prev] = some st ∧ st.key = 1 ∧
    oneFile.getImpl (look 9 1 twoBlobs) = .ok [42] := by
  have hr : ∃ st, run (State.step stepping false oneFile)
      (State.init (DBIter.State.init twoBlobs 0)) [.seek 2, .prev] = some st ∧
      st.valid = true ∧ st.key = 1 ∧ st.value false = [42] := ⟨_, rfl, rfl, rfl, rfl⟩
  obtain ⟨st, hr, hvalid, hkey, hvalue⟩ := hr
  obtain ⟨current, -, -, hget⟩ := run_reads twoBlobs_ordered hr
  refine ⟨st, hr, hkey, ?_⟩
  rw [← hkey, ← hvalue]
  exact hget rfl hvalid

/-- The same with the blob of key 1 written inline, and a deletion. -/
def inlined : List (Kv ℕ) :=
  [⟨0, 6, .kTypeDeletion, []⟩, ⟨1, 4, .kTypeValue, [42]⟩, ⟨2, 3, .kTypeValue, [5]⟩,
    ⟨3, 2, .kTypeBlobIndex, [1, 8, 0, 10, 0]⟩]

theorem inlined_ordered : Ordered inlined where
  sorted := by
    change inlined.Pairwise fun a b =>
      a.userKey < b.userKey ∨ a.userKey = b.userKey ∧ b.sequence < a.sequence
    decide +kernel
  bounded := by decide +kernel
  noMerge := by decide +kernel

theorem inlined_sameReads : SameReads false stepping stepping oneFile oneFile twoBlobs inlined := by
  refine ⟨rfl, rfl, fun k => ?_⟩
  rcases k with _ | _ | _ | _ | k <;> rfl

theorem run_determined_inlined : ∃ st', run (State.step stepping false oneFile)
      (State.init (DBIter.State.init inlined 0)) [.seek 2, .prev] = some st' ∧
    st'.valid = true ∧ st'.key = 1 ∧ st'.value false = [42] := by
  have hr : ∃ st, run (State.step stepping false oneFile)
      (State.init (DBIter.State.init twoBlobs 0)) [.seek 2, .prev] = some st ∧
      st.valid = true ∧ st.key = 1 ∧ st.value false = [42] := ⟨_, rfl, rfl, rfl, rfl⟩
  obtain ⟨st, hr, hvalid, hkey, hvalue⟩ := hr
  obtain ⟨st', hr', hagree⟩ := run_determined twoBlobs_ordered inlined_ordered inlined_sameReads hr
  exact ⟨st', hr', hagree.valid.symm.trans hvalid, (hagree.key hvalid).symm.trans hkey,
    (hagree.value hvalid).symm.trans hvalue⟩

end

end AegonKV.TitanDBIterator

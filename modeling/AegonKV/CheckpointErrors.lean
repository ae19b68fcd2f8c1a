import AegonKV.FileNames
import AegonKV.Status

/-!
# Errors on the way through `CreateCustomCheckpoint`

One status is assigned for every file of the list: the result of linking it, of copying it once a
link has come back as not supported, or of writing the new manifest. The loop goes on after a
failure, and the result of creating CURRENT is dropped. The callbacks may return anything for any
file.
-/

namespace AegonKV.CustomCheckpoint
open FileName (FileType)

/-- The type that `ParseFileName` finds, with no prefix for info logs. -/
def parseFileName (fname : String) : Option FileType :=
  (FileName.parseFileName fname.toList).map Prod.snd

/-- An entry of the list, with what `link_file_cb`, `copy_file_cb` and `CreateTitanManifest` return
for it. -/
structure LiveFile where
  fname : String
  link : Status
  copy : Status
  manifest : Status
  deriving DecidableEq

structure CopyLoop where
  status : Status
  sameFs : Bool := true
  manifestFname : String := ""
  currentFname : String := ""
  /-- Every file but CURRENT, with the status after it. -/
  transfers : List (LiveFile × Status) := []

/-- The body of the loop for a file other than CURRENT. -/
def CopyLoop.transfer (st : CopyLoop) (file : LiveFile) (type : FileType) : CopyLoop :=
  let st := if type = .kDescriptorFile then { st with manifestFname := file.fname } else st
  let st :=
    if type = .kBlobFile ∧ st.sameFs then
      if file.link.code = .notSupported then { st with sameFs := false, status := .ok }
      else { st with status := file.link }
    else st
  let st :=
    if type ≠ .kBlobFile ∨ !st.sameFs then
      { st with status := if type = .kDescriptorFile then file.manifest else file.copy }
    else st
  { st with transfers := st.transfers ++ [(file, st.status)] }

def CopyLoop.run : CopyLoop → List LiveFile → CopyLoop
  | st, [] => st
  | st, file :: files =>
    match parseFileName file.fname with
    | none => { st with status := .corruption "Can't parse file name. This is very bad" }
    | some .kCurrentFile => run { st with currentFname := file.fname } files
    | some type => run (st.transfer file type) files

structure CheckpointOutcome where
  status : Status
  transfers : List (LiveFile × Status)
  /-- The name and the contents CURRENT was created with, and what `create_file_cb` returned. -/
  current : Option (String × String × Status)

/-- `CreateCustomCheckpoint`, with the results of `GetAllTitanFiles` and of `create_file_cb`. -/
def createCustomCheckpoint (getAllTitanFiles : Status) (files : List LiveFile)
    (createFile : Status) : CheckpointOutcome :=
  if !getAllTitanFiles.isOk then ⟨getAllTitanFiles, [], none⟩
  else
    let loop := CopyLoop.run { status := getAllTitanFiles } files
    if loop.status.isOk ∧ loop.currentFname ≠ "" ∧ loop.manifestFname ≠ "" then
      ⟨loop.status, loop.transfers, some (loop.currentFname, loop.manifestFname ++ "\n", createFile)⟩
    else ⟨loop.status, loop.transfers, none⟩

/-! ## The result that counts for a file -/

namespace LiveFile

def type (file : LiveFile) : Option FileType := parseFileName file.fname

def result (file : LiveFile) (type : FileType) (sameFs : Bool) : Status :=
  if type = .kDescriptorFile then file.manifest
  else if type = .kBlobFile ∧ sameFs = true ∧ file.link.code ≠ .notSupported then file.link
  else file.copy

def staysOnFs (file : LiveFile) (type : FileType) (sameFs : Bool) : Bool :=
  sameFs && !(decide (type = .kBlobFile) && decide (file.link.code = .notSupported))

end LiveFile

/-- Every file but CURRENT, with the result that counts for it. -/
def counted : Bool → List LiveFile → List (LiveFile × Status)
  | _, [] => []
  | sameFs, file :: files =>
    match file.type with
    | none => []
    | some type =>
      if type = .kCurrentFile then counted sameFs files
      else (file, file.result type sameFs) :: counted (file.staysOnFs type sameFs) files

theorem CopyLoop.transfer_eq (st : CopyLoop) (file : LiveFile) (type : FileType) :
    st.transfer file type =
      { status := file.result type st.sameFs
        sameFs := file.staysOnFs type st.sameFs
        manifestFname := if type = .kDescriptorFile then file.fname else st.manifestFname
        currentFname := st.currentFname
        transfers := st.transfers ++ [(file, file.result type st.sameFs)] } := by
  obtain ⟨s, sameFs, m, c, ts⟩ := st
  by_cases hd : type = .kDescriptorFile
  · subst hd
    simp [transfer, LiveFile.result, LiveFile.staysOnFs]
  · by_cases hb : type = .kBlobFile
    · subst hb
      cases sameFs with
      | false => simp [transfer, LiveFile.result, LiveFile.staysOnFs]
      | true =>
          by_cases hl : file.link.code = .notSupported <;>
            simp [transfer, LiveFile.result, LiveFile.staysOnFs, hl]
    · simp [transfer, LiveFile.result, LiveFile.staysOnFs, hd, hb]

namespace CopyLoop

variable {st : CopyLoop} {file : LiveFile} {files : List LiveFile} {type : FileType}

theorem run_none (h : file.type = none) :
    st.run (file :: files) =
      { st with status := .corruption "Can't parse file name. This is very bad" } := by
  rw [LiveFile.type] at h
  simp only [run, h]

theorem run_current (h : file.type = some .kCurrentFile) :
    st.run (file :: files) = run { st with currentFname := file.fname } files := by
  rw [LiveFile.type] at h
  simp only [run, h]

theorem run_transfer (h : file.type = some type) (hne : type ≠ .kCurrentFile) :
    st.run (file :: files) = run (st.transfer file type) files := by
  rw [LiveFile.type] at h
  cases type <;> first | exact absurd rfl hne | simp only [run, h]

/-- A name that cannot be parsed ends the loop with an error. -/
theorem run_unparsed (h : ∃ file ∈ files, file.type = none) : (st.run files).status.isOk = false := by
  induction files generalizing st with
  | nil => simp at h
  | cons file files ih =>
      cases htype : file.type with
      | none =>
          rw [run_none htype]
          rfl
      | some type =>
          have hrest : ∃ file ∈ files, file.type = none := by
            simpa [htype] using h
          by_cases hcurrent : type = .kCurrentFile
          · subst hcurrent
            rw [run_current htype]
            exact ih hrest
          · rw [run_transfer htype hcurrent]
            exact ih hrest

theorem fname_ne_empty (h : file.type = some type) : file.fname ≠ "" := by
  intro hempty
  rw [LiveFile.type, hempty] at h
  cases h

/-- What the loop leaves where all names can be parsed. -/
theorem run_parsed (st : CopyLoop) (h : ∀ file ∈ files, file.type ≠ none) :
    (st.run files).transfers = st.transfers ++ counted st.sameFs files ∧
      (st.run files).status =
        (((counted st.sameFs files).getLast?).map Prod.snd).getD st.status ∧
      ((st.run files).manifestFname ≠ "" ↔
        st.manifestFname ≠ "" ∨ ∃ file ∈ files, file.type = some .kDescriptorFile) ∧
      ((st.run files).currentFname ≠ "" ↔
        st.currentFname ≠ "" ∨ ∃ file ∈ files, file.type = some .kCurrentFile) := by
  induction files generalizing st with
  | nil => simp [run, counted]
  | cons file files ih =>
      have hrest : ∀ file ∈ files, file.type ≠ none :=
        fun f hf => h f (List.mem_cons_of_mem _ hf)
      obtain ⟨type, htype⟩ := Option.ne_none_iff_exists'.mp (h file List.mem_cons_self)
      have hname := fname_ne_empty htype
      by_cases hcurrent : type = .kCurrentFile
      · subst hcurrent
        obtain ⟨htransfers, hstatus, hmanifest, hname'⟩ :=
          ih { st with currentFname := file.fname } hrest
        rw [run_current htype]
        refine ⟨?_, ?_, ?_, ?_⟩
        · simpa [counted, htype] using htransfers
        · simpa [counted, htype] using hstatus
        · simpa [htype] using hmanifest
        · simpa [htype, hname] using hname'
      · obtain ⟨htransfers, hstatus, hmanifest, hname'⟩ := ih (st.transfer file type) hrest
        have hcounted : counted st.sameFs (file :: files) =
            (file, file.result type st.sameFs) ::
              counted (file.staysOnFs type st.sameFs) files := by
          simp [counted, htype, hcurrent]
        rw [transfer_eq] at htransfers hstatus hmanifest hname'
        rw [run_transfer htype hcurrent, transfer_eq, hcounted]
        refine ⟨?_, ?_, ?_, ?_⟩
        · rw [htransfers, List.append_assoc, List.singleton_append]
        · rw [hstatus, List.getLast?_cons]
          cases (counted (file.staysOnFs type st.sameFs) files).getLast? <;> rfl
        · rw [hmanifest]
          by_cases hd : type = .kDescriptorFile
          · simp [hd, htype, hname]
          · simp [hd, htype]
        · rw [hname']
          simp [htype, hcurrent]

/-- Where all names can be parsed, every file but CURRENT counts. -/
theorem counted_map_fst (sameFs : Bool) (h : ∀ file ∈ files, file.type ≠ none) :
    (counted sameFs files).map Prod.fst =
      files.filter fun file => file.type ≠ some .kCurrentFile := by
  induction files generalizing sameFs with
  | nil => rfl
  | cons file files ih =>
      have hrest : ∀ file ∈ files, file.type ≠ none :=
        fun f hf => h f (List.mem_cons_of_mem _ hf)
      obtain ⟨type, htype⟩ := Option.ne_none_iff_exists'.mp (h file List.mem_cons_self)
      by_cases hcurrent : type = .kCurrentFile
      · simp [counted, htype, hcurrent, ih _ hrest]
      · simp [counted, htype, hcurrent, ih _ hrest]

end CopyLoop

/-! ## Complete checkpoints -/

/-- Every listed blob file was linked or copied, the manifest was written and CURRENT was created. -/
structure Complete (files : List LiveFile) (r : CheckpointOutcome) : Prop where
  listed : r.transfers.map Prod.fst = files.filter fun file => file.type ≠ some .kCurrentFile
  blobs : ∀ t ∈ r.transfers, t.1.type = some .kBlobFile → t.2.isOk = true
  manifest : ∃ t ∈ r.transfers, t.1.type = some .kDescriptorFile
  manifests : ∀ t ∈ r.transfers, t.1.type = some .kDescriptorFile → t.2.isOk = true
  current : ∃ name contents s, r.current = some (name, contents, s) ∧ s.isOk = true

section

variable {getAllTitanFiles : Status} {files : List LiveFile}

theorem createCustomCheckpoint_status (createFile : Status) (h : getAllTitanFiles.isOk = true) :
    (createCustomCheckpoint getAllTitanFiles files createFile).status =
      (CopyLoop.run { status := getAllTitanFiles } files).status := by
  simp only [createCustomCheckpoint, h, Bool.not_true, Bool.false_eq_true, if_false]
  split_ifs <;> rfl

theorem createCustomCheckpoint_transfers (createFile : Status) (h : getAllTitanFiles.isOk = true)
    (hparsed : ∀ file ∈ files, file.type ≠ none) :
    (createCustomCheckpoint getAllTitanFiles files createFile).transfers = counted true files := by
  have hrun := (CopyLoop.run_parsed { status := getAllTitanFiles } hparsed).1
  simp only [createCustomCheckpoint, h, Bool.not_true, Bool.false_eq_true, if_false]
  split_ifs <;> exact hrun

/-- CURRENT is created where the list names it and the manifest. -/
theorem createCustomCheckpoint_current_iff (createFile : Status) (h : getAllTitanFiles.isOk = true)
    (hparsed : ∀ file ∈ files, file.type ≠ none)
    (hok : (CopyLoop.run { status := getAllTitanFiles } files).status.isOk = true) :
    (∃ name contents s, (createCustomCheckpoint getAllTitanFiles files createFile).current =
        some (name, contents, s) ∧ s.isOk = true) ↔
      (∃ file ∈ files, file.type = some .kDescriptorFile) ∧
        (∃ file ∈ files, file.type = some .kCurrentFile) ∧ createFile.isOk = true := by
  obtain ⟨-, -, hmanifest, hcurrent⟩ :=
    CopyLoop.run_parsed { status := getAllTitanFiles } hparsed
  simp only [ne_eq, not_true, false_or] at hmanifest hcurrent
  simp only [createCustomCheckpoint, h, Bool.not_true, Bool.false_eq_true, if_false, hok, true_and,
    hmanifest, hcurrent]
  split_ifs with hboth
  · simp only [hboth.1, hboth.2, true_and]
    refine ⟨fun ⟨_, _, s, heq, hs⟩ => ?_, fun hs => ⟨_, _, createFile, rfl, hs⟩⟩
    obtain rfl : createFile = s := congrArg (fun c => c.2.2) (Option.some.inj heq)
    exact hs
  · refine iff_of_false (fun ⟨_, _, _, hnone, _⟩ => (by cases hnone)) fun hall => ?_
    exact hboth ⟨hall.2.1, hall.1⟩

/-- The last result that counts decides the status. -/
theorem run_isOk_iff (h : getAllTitanFiles.isOk = true)
    (hparsed : ∀ file ∈ files, file.type ≠ none) :
    (CopyLoop.run { status := getAllTitanFiles } files).status.isOk = true ↔
      ¬ ∃ t, (counted true files).getLast? = some t ∧ t.2.isOk = false := by
  rw [(CopyLoop.run_parsed { status := getAllTitanFiles } hparsed).2.1]
  cases hlast : (counted true files).getLast? with
  | none => simp [h]
  | some t => simp

theorem complete_iff (createFile : Status) (h : getAllTitanFiles.isOk = true)
    (hparsed : ∀ file ∈ files, file.type ≠ none)
    (hok : (CopyLoop.run { status := getAllTitanFiles } files).status.isOk = true) :
    Complete files (createCustomCheckpoint getAllTitanFiles files createFile) ↔
      (∀ t ∈ counted true files,
          t.1.type = some .kBlobFile ∨ t.1.type = some .kDescriptorFile → t.2.isOk = true) ∧
        (∃ file ∈ files, file.type = some .kDescriptorFile) ∧
        (∃ file ∈ files, file.type = some .kCurrentFile) ∧ createFile.isOk = true := by
  have htransfers := createCustomCheckpoint_transfers createFile h hparsed
  have hcurrent := createCustomCheckpoint_current_iff createFile h hparsed hok
  constructor
  · intro hc
    refine ⟨fun t ht htype => ?_, hcurrent.mp hc.current⟩
    rw [← htransfers] at ht
    obtain hblob | hmanifest := htype
    · exact hc.blobs t ht hblob
    · exact hc.manifests t ht hmanifest
  · rintro ⟨hall, hrest⟩
    refine ⟨?_, ?_, ?_, ?_, hcurrent.mpr hrest⟩
    · rw [htransfers, CopyLoop.counted_map_fst true hparsed]
    · rw [htransfers]
      exact fun t ht htype => hall t ht (.inl htype)
    · obtain ⟨file, hfile, htype⟩ := hrest.1
      have hmem : file ∈ (counted true files).map Prod.fst := by
        rw [CopyLoop.counted_map_fst true hparsed, List.mem_filter]
        exact ⟨hfile, by simp [htype]⟩
      obtain ⟨t, ht, rfl⟩ := List.mem_map.mp hmem
      rw [htransfers]
      exact ⟨t, ht, htype⟩
    · rw [htransfers]
      exact fun t ht htype => hall t ht (.inr htype)

end

/-- A checkpoint that the call reports as made is complete exactly where the call has no choice but
to see the failure, or there is none. -/
theorem complete_of_ok_iff (getAllTitanFiles : Status) (files : List LiveFile)
    (createFile : Status) :
    ((createCustomCheckpoint getAllTitanFiles files createFile).status.isOk = true →
        Complete files (createCustomCheckpoint getAllTitanFiles files createFile)) ↔
      getAllTitanFiles.isOk = false ∨
      (∃ file ∈ files, file.type = none) ∨
      (∃ t, (counted true files).getLast? = some t ∧ t.2.isOk = false) ∨
      ((∀ t ∈ counted true files,
          t.1.type = some .kBlobFile ∨ t.1.type = some .kDescriptorFile → t.2.isOk = true) ∧
        (∃ file ∈ files, file.type = some .kDescriptorFile) ∧
        (∃ file ∈ files, file.type = some .kCurrentFile) ∧ createFile.isOk = true) := by
  cases hget : getAllTitanFiles.isOk with
  | false =>
      have hstatus : (createCustomCheckpoint getAllTitanFiles files createFile).status.isOk =
          false := by
        simp [createCustomCheckpoint, hget]
      exact iff_of_true (fun h => (Bool.false_ne_true (hstatus.symm.trans h)).elim) (.inl rfl)
  | true =>
      rw [createCustomCheckpoint_status createFile hget]
      by_cases hparsed : ∃ file ∈ files, file.type = none
      · refine iff_of_true (fun h => ?_) (.inr (.inl hparsed))
        rw [CopyLoop.run_unparsed hparsed] at h
        cases h
      · have hall : ∀ file ∈ files, file.type ≠ none := fun file hfile htype =>
          hparsed ⟨file, hfile, htype⟩
        simp only [Bool.true_eq_false, hparsed, false_or]
        by_cases hlast : ∃ t, (counted true files).getLast? = some t ∧ t.2.isOk = false
        · exact iff_of_true (fun h => ((run_isOk_iff hget hall).mp h hlast).elim) (.inl hlast)
        · have hok := (run_isOk_iff hget hall).mpr hlast
          simp only [hlast, false_or, hok, forall_const]
          exact complete_iff createFile hget hall hok

/-- A blob file whose link may fail. -/
def blobFile (link : Status) : LiveFile := ⟨"/000005.blob", link, .ok, .ok⟩

/-- The list as `GetAllFiles` puts it together: the blob files, the manifest, CURRENT. -/
def listed (link : Status) : List LiveFile :=
  [blobFile link, ⟨"/MANIFEST-000002", .ok, .ok, .ok⟩, ⟨"/CURRENT", .ok, .ok, .ok⟩]

/-- The blob file cannot be linked, for another reason than the file system, so that it is not copied
either. The manifest after it makes the status OK again. -/
theorem failed_link_reported_ok :
    (createCustomCheckpoint .ok (listed { code := .ioError }) .ok).status = .ok ∧
      ¬ Complete (listed { code := .ioError })
        (createCustomCheckpoint .ok (listed { code := .ioError }) .ok) := by
  refine ⟨rfl, fun h => ?_⟩
  have hfailed := h.blobs (blobFile { code := .ioError }, { code := .ioError })
    List.mem_cons_self rfl
  cases hfailed

end AegonKV.CustomCheckpoint

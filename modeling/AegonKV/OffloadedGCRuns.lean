import AegonKV.OffloadedGCReads

/-!
# Runs under offloaded garbage collection

Each action of a harmless run keeps the invariant, so every read along it returns the last Put. A
memtable switch that separates a write-back from the Value it lost against is enough to bring an
overwritten value back.
-/

namespace AegonKV.OffloadedGC
open LittleEndian AegonKV

variable {κ : Type} {s s' : State κ}

/-! ## What a step of a job does -/

section

variable {j : ℕ}

theorem gcCopyStep_cases {inputs offsets : List UInt64} {bits : UInt64 → UInt64 → Bool}
    {output : UInt64} (h : s.gcCopyStep inputs bits output offsets = some s') :
    (keptRecords s.files bits inputs).length = offsets.length ∧
      ∃ files, s.files.transitAll .kGCBegin inputs = some files ∧ ∃ hoffsets, s' = { s with
        files := files
        jobs := s.jobs ++ [⟨inputs, output,
          ⟨copies (keptRecords s.files bits inputs) offsets, .kPendingGC, hoffsets⟩, false,
          List.zipWith (rewriteOf output) (keptRecords s.files bits inputs)
            (copies (keptRecords s.files bits inputs) offsets)⟩] } := by
  simp only [State.gcCopyStep, Option.bind_eq_bind, Option.bind_eq_some_iff] at h
  obtain ⟨files, hfiles, state, hstate, h⟩ := h
  obtain rfl : FileState.kPendingGC = state := Option.some.inj hstate
  split_ifs at h with hoffsets hlength
  exact ⟨hlength, files, hfiles, hoffsets, (Option.some.inj h).symm⟩

theorem gcInstallStep_cases (h : s.gcInstallStep j = some s') :
    ∃ job, s.jobs[j]? = some job ∧ job.installed = false ∧ s.files job.outputNumber = none ∧
      s' = { s with
        files := Function.update s.files job.outputNumber (some job.output)
        jobs := s.jobs.set j { job with installed := true } } := by
  unfold State.gcInstallStep at h
  split at h
  · cases h
  rename_i job hjob
  split_ifs at h with hcond
  rw [Bool.or_eq_true, not_or, Bool.not_eq_true, Option.not_isSome_iff_eq_none] at hcond
  exact ⟨job, hjob, hcond.1, hcond.2, (Option.some.inj h).symm⟩

theorem gcWriteBackStep_cases [DecidableEq κ] (h : s.gcWriteBackStep j = some s') :
    ∃ job w rest, s.jobs[j]? = some job ∧ job.rewriteBatches = w :: rest ∧
      job.installed = true ∧ s' = { s.pushMem w.key (.writeBack w.new w.old) with
        jobs := s.jobs.set j { job with rewriteBatches := rest } } := by
  unfold State.gcWriteBackStep at h
  split at h
  · cases h
  rename_i job hjob
  split at h
  · cases h
  rename_i w rest hw
  split_ifs at h with hinst
  exact ⟨job, w, rest, hjob, hw, hinst, (Option.some.inj h).symm⟩

theorem gcFinishStep_cases (h : s.gcFinishStep j = some s') :
    ∃ job mid files, s.jobs[j]? = some job ∧ job.installed = true ∧ job.rewriteBatches = [] ∧
      s.files.transitAll .kDelete job.inputs = some mid ∧
      mid.transit .kGCCompleted job.outputNumber = some files ∧
      s' = { s with files := files, jobs := s.jobs.eraseIdx j } := by
  unfold State.gcFinishStep at h
  split at h
  · cases h
  rename_i job hjob
  split_ifs at h with hcond
  rw [Bool.and_eq_true, List.isEmpty_iff] at hcond
  simp only [Option.bind_eq_bind, Option.bind_eq_some_iff] at h
  obtain ⟨mid, hmid, files, hfiles, heq⟩ := h
  exact ⟨job, mid, files, hjob, hcond.1, hcond.2, hmid, hfiles, (Option.some.inj heq).symm⟩

end

/-! ## Copying and installing -/

theorem mem_keptRecords {files : BlobFiles κ} {bits : UInt64 → UInt64 → Bool}
    {inputs : List UInt64} {x : UInt64 × BlobRec κ} (h : x ∈ keptRecords files bits inputs) :
    files.read (pointerTo x.1 x.2) = some x.2 := by
  obtain ⟨f, -, hx⟩ := List.mem_flatMap.mp h
  cases hf : files f with
  | none => simp [hf] at hx
  | some bf =>
      simp only [hf, List.mem_map, List.mem_filter] at hx
      obtain ⟨r, ⟨hr, -⟩, rfl⟩ := hx
      exact BlobFiles.read_pointerTo hf hr

theorem getElem?_copies {kept : List (UInt64 × BlobRec κ)} {offsets : List UInt64} {i : ℕ}
    {r : BlobRec κ} (h : (copies kept offsets)[i]? = some r) {x : UInt64 × BlobRec κ}
    (hx : kept[i]? = some x) : r.value = x.2.value := by
  simp only [copies, List.getElem?_map, List.getElem?_zipIdx, Option.map_map,
    Option.map_eq_some_iff] at h
  obtain ⟨⟨y, o⟩, hy, rfl⟩ := h
  obtain ⟨hy', -⟩ := List.getElem?_zip_eq_some.mp hy
  obtain rfl : x = y := Option.some.inj (hx.symm.trans hy')
  rfl

theorem mem_rewrites {kept : List (UInt64 × BlobRec κ)} {offsets : List UInt64} {output : UInt64}
    {w : Rewrite κ} (h : w ∈ List.zipWith (rewriteOf output) kept (copies kept offsets)) :
    ∃ x ∈ kept, ∃ r ∈ copies kept offsets, w = rewriteOf output x r ∧ r.value = x.2.value := by
  obtain ⟨i, hi⟩ := List.mem_iff_getElem?.mp h
  obtain ⟨x, r, hx, hr, rfl⟩ := List.getElem?_zipWith_eq_some.mp hi
  exact ⟨x, List.mem_of_getElem? hx, r, List.mem_of_getElem? hr, rfl, getElem?_copies hr hx⟩

theorem Inv.gcCopy (h : Inv s) {inputs : List UInt64} {bits : UInt64 → UInt64 → Bool}
    {output : UInt64} {offsets : List UInt64}
    (hstep : s.gcCopyStep inputs bits output offsets = some s') : Inv s' := by
  obtain ⟨-, files, hfiles, hoffsets, rfl⟩ := gcCopyStep_cases hstep
  have hread := BlobFiles.read_transitAll hfiles
  have hle : FilesLe s.files files := .of_read_eq hread
  have hinv := h.files_step hle
  refine ⟨hinv.keys, hinv.mem_plain, hinv.imm_plain, ?_⟩
  intro job hj
  obtain hj | hj := List.mem_append.mp hj
  · exact hinv.jobs job hj
  obtain rfl := List.mem_singleton.mp hj
  refine ⟨fun w hw => ?_, by simp⟩
  obtain ⟨x, hx, r, hr, rfl, hval⟩ := mem_rewrites hw
  refine ⟨r, hr, rfl, x.2, ?_, hval.symm⟩
  have hsame : (rewriteOf output x r).old.sameRecord (pointerTo x.1 x.2) := by
    simp [rewriteOf, pointerTo, BlobIndexType.sameRecord]
  change files.read _ = _
  rw [BlobFiles.read_congr hsame, hread, mem_keptRecords hx]

theorem Inv.gcInstall (h : Inv s) {j : ℕ} (hstep : s.gcInstallStep j = some s') : Inv s' := by
  obtain ⟨job, hjob, -, hnone, rfl⟩ := gcInstallStep_cases hstep
  have hle : FilesLe s.files (Function.update s.files job.outputNumber (some job.output)) :=
    fun p r hr => BlobFiles.read_update_of_fresh hnone hr _
  have hinv := h.files_step hle
  refine ⟨hinv.keys, hinv.mem_plain, hinv.imm_plain, ?_⟩
  intro job' hj'
  obtain hj' | rfl := List.mem_or_eq_of_mem_set hj'
  · exact hinv.jobs job' hj'
  have hold := hinv.jobs job (List.mem_of_getElem? hjob)
  refine ⟨hold.copied, fun _ w hw => ?_⟩
  obtain ⟨r, hr, hnew, r', hr', hval⟩ := hold.copied w hw
  refine ⟨r, r', ?_, hr', hval.symm⟩
  rw [hnew]
  exact BlobFiles.read_pointerTo (Function.update_self _ _ _) hr

theorem Inv.gcFinish (h : Inv s) {j : ℕ} (hstep : s.gcFinishStep j = some s') : Inv s' := by
  obtain ⟨job, mid, files, -, -, -, hmid, hfiles, rfl⟩ := gcFinishStep_cases hstep
  have hle : FilesLe s.files files := .of_read_eq fun p => by
    rw [BlobFiles.read_transit hfiles, BlobFiles.read_transitAll hmid]
  have hinv := h.files_step hle
  exact ⟨hinv.keys, hinv.mem_plain, hinv.imm_plain,
    fun job' hj' => hinv.jobs job' (List.mem_of_mem_eraseIdx hj')⟩

/-! ## Flushes and compactions -/

theorem addBlobFile_spec {files files' : BlobFiles κ} {f : UInt64} {records : List (BlobRec κ)}
    (h : addBlobFile files f records = some files') :
    FilesLe files files' ∧ ∀ r ∈ records, files'.read (pointerTo f r) = some r := by
  unfold addBlobFile at h
  split_ifs at h with hn hempty hsome
  · obtain rfl := Option.some.inj h
    obtain rfl : records = [] := List.isEmpty_iff.mp hempty
    exact ⟨fun _ _ hr => hr, by simp⟩
  · simp only [fileStateTransit, if_true, Option.map_some, Option.some.injEq] at h
    subst h
    have hnone : files f = none := by simpa using hsome
    exact ⟨fun p r hr => BlobFiles.read_update_of_fresh hnone hr _,
      fun r hr => BlobFiles.read_pointerTo (Function.update_self _ _ _) hr⟩

variable [DecidableEq κ]

theorem Separates.find? {segment : Table κ} {records : List (BlobRec κ)}
    (h : Separates segment records) {k : κ} {b : Bytes} {r : BlobRec κ}
    (hk : resolve (segment k) = some (.value b))
    (hr : (records.find? fun r => r.key = k) = some r) : r ∈ records ∧ r.value = b := by
  have hmem := List.mem_of_find?_eq_some hr
  have hkey : r.key = k := by simpa using List.find?_some hr
  have hval := h r hmem
  rw [hkey, hk] at hval
  exact ⟨hmem, by simpa using hval.symm⟩

/-- Replacing a segment by the table built from it keeps what the chain leads to. -/
theorem Fresh.buildTable {segment : Table κ} {f : UInt64} {records : List (BlobRec κ)}
    {files files' : BlobFiles κ} (hsep : Separates segment records)
    (hadd : addBlobFile files f records = some files') {k : κ} {A B : List Version} {r : Resolved}
    {v : Bytes} (h : Fresh (A ++ (segment k ++ B)) r) (hden : Denotes files r v)
    (hp : (∀ u ∈ A, u.isUserWrite = false) → ¬PlainAboveValue (segment k)) :
    ∃ r', Fresh (A ++ (buildTable segment f records k ++ B)) r' ∧ Denotes files' r' v := by
  obtain ⟨hle, hread⟩ := addBlobFile_spec hadd
  obtain hin | ⟨hA, r₀, hX, hrep, hval⟩ := h.split
  · exact ⟨r, hin _, hden.mono hle⟩
  by_cases hne : segment k = []
  · have hbuild : OffloadedGC.buildTable segment f records k = [] := by
      simp [OffloadedGC.buildTable, hne, AegonKV.resolve]
    rw [hbuild, ← hne]
    exact ⟨r, h, hden.mono hle⟩
  obtain ⟨u, hu, hfresh⟩ := hX.resolve hne (hp hA)
  have hkeep : Fresh (A ++ (u :: B)) r := hrep _ hfresh
  cases u with
  | plain p => exact ⟨r, by simpa [OffloadedGC.buildTable, hu] using hkeep, hden.mono hle⟩
  | writeBack n o => exact ⟨r, by simpa [OffloadedGC.buildTable, hu] using hkeep, hden.mono hle⟩
  | value b =>
      cases hfind : records.find? fun r => r.key = k with
      | none =>
          exact ⟨r, by simpa [OffloadedGC.buildTable, hu, hfind] using hkeep, hden.mono hle⟩
      | some rec =>
          obtain ⟨hmem, hrec⟩ := hsep.find? hu hfind
          have hA' : A = [] := hval b hfresh
          subst hA'
          obtain rfl : r = .value b := hkeep
          obtain rfl : b = v := hden
          refine ⟨.pointer (pointerTo f rec), ?_, rec, hread rec hmem, hrec⟩
          simp [OffloadedGC.buildTable, hu, hfind, Fresh]

theorem KeyInv.buildTable {segment : Table κ} {f : UInt64} {records : List (BlobRec κ)}
    (hsep : Separates segment records)
    (hadd : addBlobFile s.files f records = some s'.files) {k : κ} {A B : List Version} {v : Bytes}
    (h : KeyInv s k v) (hmem : s'.mem k = s.mem k) (hs : s.versions k = A ++ (segment k ++ B))
    (hs' : s'.versions k = A ++ (buildTable segment f records k ++ B))
    (hp : (∀ u ∈ A, u.isUserWrite = false) → ¬PlainAboveValue (segment k)) : KeyInv s' k v := by
  obtain ⟨r, hfresh, hden⟩ | hstale := h
  · rw [hs] at hfresh
    obtain ⟨r', hfresh', hden'⟩ := Fresh.buildTable hsep hadd hfresh hden hp
    exact Or.inl ⟨r', hs' ▸ hfresh', hden'⟩
  · exact Or.inr (hmem ▸ hstale)

omit [DecidableEq κ] in
/-- What a flush merges lies between the newer memtables and the sorted runs. -/
theorem versions_flush (s : State κ) (m : ℕ) (k : κ) :
    s.versions k = (s.mem k ++ (s.imm.take m).flatMap (· k)) ++
      ((s.imm.drop m).flatMap (· k) ++ s.ssts.flatMap (· k)) := by
  have himm : s.imm.flatMap (· k) =
      (s.imm.take m).flatMap (· k) ++ (s.imm.drop m).flatMap (· k) := by
    rw [← List.flatMap_append, List.take_append_drop]
  simp only [State.versions, himm, List.append_assoc]

omit [DecidableEq κ] in
theorem versions_flushed (s : State κ) (m : ℕ) (table : Table κ) (files : BlobFiles κ) (k : κ) :
    State.versions { s with imm := s.imm.take m, ssts := table :: s.ssts, files := files } k =
      (s.mem k ++ (s.imm.take m).flatMap (· k)) ++ (table k ++ s.ssts.flatMap (· k)) := by
  simp only [State.versions, List.flatMap_cons, List.append_assoc]

omit [DecidableEq κ] in
/-- What a compaction merges lies between `above` and the runs below. -/
theorem versions_compact (s : State κ) (i n : ℕ) {selected : κ → Bool} {k : κ}
    (hk : selected k = true) :
    s.versions k = s.above i k ++
      (s.segment i n selected k ++ ((s.ssts.drop i).drop n).flatMap (· k)) := by
  have hruns : s.ssts.flatMap (· k) = (s.ssts.take i).flatMap (· k) ++
      (((s.ssts.drop i).take n).flatMap (· k) ++ ((s.ssts.drop i).drop n).flatMap (· k)) := by
    rw [← List.flatMap_append, List.take_append_drop, ← List.flatMap_append, List.take_append_drop]
  simp only [State.versions, State.above, State.segment, hk, if_true, hruns, List.append_assoc]

def State.compacted (s : State κ) (i n : ℕ) (selected : κ → Bool) (table : Table κ)
    (files : BlobFiles κ) : State κ :=
  { s with
    ssts := s.ssts.take i ++
      ((s.ssts.drop i).take n).map (fun t k => if selected k then [] else t k) ++
      table :: (s.ssts.drop i).drop n
    files := files }

omit [DecidableEq κ] in
theorem versions_compacted (s : State κ) (i n : ℕ) {selected : κ → Bool} {k : κ}
    (hk : selected k = true) (table : Table κ) (files : BlobFiles κ) :
    (s.compacted i n selected table files).versions k =
      s.above i k ++ (table k ++ ((s.ssts.drop i).drop n).flatMap (· k)) := by
  simp only [State.compacted, State.versions, State.above, List.flatMap_append, List.flatMap_cons,
    List.flatMap_map, hk, if_true, List.append_assoc]
  simp

omit [DecidableEq κ] in
theorem versions_compacted_of_not_selected (s : State κ) (i n : ℕ) {selected : κ → Bool} {k : κ}
    (hk : ¬selected k = true) {table : Table κ} (htable : table k = []) (files : BlobFiles κ) :
    (s.compacted i n selected table files).versions k = s.versions k := by
  have hruns : s.ssts.flatMap (· k) = (s.ssts.take i).flatMap (· k) ++
      (((s.ssts.drop i).take n).flatMap (· k) ++ ((s.ssts.drop i).drop n).flatMap (· k)) := by
    rw [← List.flatMap_append, List.take_append_drop, ← List.flatMap_append, List.take_append_drop]
  simp only [State.compacted, State.versions, List.flatMap_append, List.flatMap_cons,
    List.flatMap_map, hk, Bool.false_eq_true, if_false, htable, List.nil_append, hruns,
    List.append_assoc]

theorem buildTable_of_not_selected (s : State κ) (i n : ℕ) {selected : κ → Bool} {k : κ}
    (hk : ¬selected k = true) (f : UInt64) (records : List (BlobRec κ)) :
    buildTable (s.segment i n selected) f records k = [] := by
  simp [buildTable, State.segment, hk, AegonKV.resolve]

theorem Inv.flush (h : Inv s) {n : ℕ} {f : UInt64} {records : List (BlobRec κ)}
    (hstep : s.flushStep n f records = some s') : Inv s' := by
  simp only [State.flushStep] at hstep
  split_ifs at hstep with hsep
  obtain ⟨files, hadd, rfl⟩ := Option.map_eq_some_iff.mp hstep
  have hle := (addBlobFile_spec hadd).1
  set m := s.imm.length - n
  refine ⟨fun k v hv => ?_, h.mem_plain, ?_, fun job hj => (h.jobs job hj).mono hle⟩
  · refine KeyInv.buildTable hsep hadd (h.keys k v hv) rfl (versions_flush s m k)
      (versions_flushed s m _ files k) ?_
    rintro - ⟨-, hplain⟩
    obtain ⟨u, hu, hup⟩ := List.any_eq_true.mp hplain
    obtain ⟨t, ht, hut⟩ := List.mem_flatMap.mp (List.takeWhile_subset _ hu)
    rw [h.imm_plain k t (List.mem_of_mem_drop ht) u hut] at hup
    cases hup
  · intro k t ht
    exact h.imm_plain k t (List.mem_of_mem_take ht)

theorem Inv.compact (h : Inv s) {i n : ℕ} {selected : κ → Bool} {f : UInt64}
    {records : List (BlobRec κ)} (hb : Harmless s (.compact i n selected f records))
    (hstep : s.compactStep i n selected f records = some s') : Inv s' := by
  simp only [State.compactStep] at hstep
  split_ifs at hstep with hsep
  obtain ⟨files, hadd, rfl⟩ := Option.map_eq_some_iff.mp hstep
  have hle := (addBlobFile_spec hadd).1
  refine ⟨fun k v hv => ?_, h.mem_plain, h.imm_plain, fun job hj => (h.jobs job hj).mono hle⟩
  by_cases hk : selected k = true
  · exact KeyInv.buildTable hsep hadd (h.keys k v hv) rfl (versions_compact s i n hk)
      (versions_compacted s i n hk _ files) (hb k)
  · have htable := buildTable_of_not_selected s i n hk f records
    exact (h.keys k v hv).mono rfl (versions_compacted_of_not_selected s i n hk htable files) hle

/-! ## Write-backs -/

theorem Inv.gcWriteBack (h : Inv s) {j : ℕ} (hb : Harmless s (.gcWriteBack j))
    (hstep : s.gcWriteBackStep j = some s') : Inv s' := by
  obtain ⟨job, w, rest, hjob, hw, hinst, rfl⟩ := gcWriteBackStep_cases hstep
  have hold := h.jobs job (List.mem_of_getElem? hjob)
  refine ⟨?_, mem_plain_pushMem h.mem_plain rfl, h.imm_plain, ?_⟩
  · intro k v hv
    have hkey := h.keys k v hv
    by_cases hk : k = w.key
    · subst hk
      obtain ⟨c, hlook, hsame⟩ | ⟨b, older, hmem⟩ := hb job w rest hjob hw
      · obtain ⟨r, hfresh, hden⟩ | ⟨n, o, older, hmem⟩ := hkey
        · rw [lookup_eq_head hfresh.not_staleOverValue, hfresh.head] at hlook
          obtain rfl := Option.some.inj hlook
          obtain ⟨new, old, hnew, hold, hval⟩ :=
            hold.readable hinst w (hw ▸ List.mem_cons_self)
          obtain ⟨cur, hcur, rfl⟩ := hden
          have heq : old = cur := by
            rw [BlobFiles.read_congr hsame, hcur] at hold
            exact (Option.some.inj hold).symm
          refine Or.inl ⟨.pointer w.new, ?_, new, hnew, by rw [hval, heq]⟩
          change Fresh ((s.pushMem w.key _).versions w.key) _
          rw [versions_pushMem_self]
          exact ⟨rfl, c, hfresh, hsame⟩
        · simp [State.lookup, getFromTable_value, hmem, staleOverValue, Version.target] at hlook
      · obtain ⟨r, hfresh, hden⟩ | ⟨n, o, older', hmem'⟩ := hkey
        · obtain rfl : r = .value b := by
            simpa [State.versions, hmem, Fresh] using hfresh
          obtain rfl : b = v := hden
          exact Or.inr ⟨w.new, w.old, older, by simp [State.pushMem, hmem]⟩
        · rw [hmem] at hmem'
          cases hmem'
    · exact hkey.mono (Function.update_of_ne hk _ _) (versions_pushMem_other s hk _)
        fun _ _ hr => hr
  · intro job' hj'
    obtain hj' | rfl := List.mem_or_eq_of_mem_set hj'
    · exact h.jobs job' hj'
    exact ⟨fun w' hw' => hold.copied w' (hw ▸ List.mem_cons_of_mem _ hw'),
      fun hi w' hw' => hold.readable hi w' (hw ▸ List.mem_cons_of_mem _ hw')⟩

theorem Inv.step (h : Inv s) {a : Action κ} (hb : Harmless s a) (hstep : step s a = some s') :
    Inv s' := by
  cases a with
  | put k v =>
      obtain rfl := Option.some.inj hstep
      exact h.put k v
  | switchMemtable =>
      obtain rfl := Option.some.inj hstep
      exact h.switchMemtable hb
  | flush n f records => exact h.flush hstep
  | compact i n selected f records => exact h.compact hb hstep
  | completed f =>
      obtain ⟨files, hfiles, rfl⟩ := Option.map_eq_some_iff.mp hstep
      exact h.files_step (.of_read_eq (BlobFiles.read_transit hfiles))
  | gcCopy inputs bits output offsets => exact h.gcCopy hstep
  | gcInstall j => exact h.gcInstall hstep
  | gcWriteBack j => exact h.gcWriteBack hb hstep
  | gcFinish j => exact h.gcFinish hstep

/-- Read transparency along every harmless run. -/
theorem get_eq_lastPut_of_harmless {actions : List (Action κ)}
    (hm : TransitionSystem.Meets step Harmless State.init actions)
    (hr : TransitionSystem.run step State.init actions = some s) {k : κ} {v : Bytes}
    (hv : s.lastPut k = some v) : s.get k = some v := by
  have hinv : Inv s := TransitionSystem.run_invariant
    (fun _ _ _ hi hb hstep => hi.step hb hstep) Inv.init hm hr
  exact (hinv.keys k v hv).get

/-- A Put, its flush into file 1, and a job that relocates the record to file 2. -/
def relocationRun : List (Action ℕ) :=
  [.put 0 [1], .switchMemtable, .flush 1 1 [⟨⟨12, 20, 0⟩, 0, [1]⟩], .completed 1,
    .gcCopy [1] (fun _ _ => false) 2 [12], .gcInstall 0, .gcWriteBack 0, .gcFinish 0]

theorem relocationRun_get :
    ∃ s, TransitionSystem.run step State.init relocationRun = some s ∧ s.get 0 = some [1] := by
  suffices hm : TransitionSystem.Meets step Harmless State.init relocationRun from
    ⟨_, rfl, get_eq_lastPut_of_harmless hm rfl rfl⟩
  refine .cons rfl trivial (.cons rfl ?_ (.cons rfl trivial (.cons rfl trivial (.cons rfl trivial
    (.cons rfl trivial (.cons rfl ?_ (.cons rfl trivial trivial)))))))
  · intro k
    by_cases hk : k = 0
    · subst hk
      rfl
    · simp [State.pushMem, State.init, hk, staleOverValue]
  · intro job w rest hjob hw
    obtain rfl := Option.some.inj hjob
    obtain ⟨rfl, rfl⟩ := List.cons.inj hw
    exact Or.inl ⟨⟨1, 12, 20, 0⟩, rfl, rfl⟩

/-- The key is overwritten and the memtable switched between the installation of a copy and its
write-back. -/
def staleWriteBackRun : List (Action ℕ) :=
  [.put 0 [1], .switchMemtable, .flush 1 1 [⟨⟨12, 20, 0⟩, 0, [1]⟩], .completed 1,
    .gcCopy [1] (fun _ _ => false) 2 [12], .gcInstall 0, .put 0 [2], .switchMemtable,
    .gcWriteBack 0]

theorem staleWriteBackRun_get :
    ∃ s, TransitionSystem.run step State.init staleWriteBackRun = some s ∧
      s.lastPut 0 = some [2] ∧ s.get 0 = some [1] :=
  ⟨_, rfl, rfl, rfl⟩

end AegonKV.OffloadedGC

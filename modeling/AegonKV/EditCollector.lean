import AegonKV.Status
import Mathlib.Data.List.Nodup
import Mathlib.Logic.Function.Basic

/-!
# Version edits and their collector

The Titan manifest is a log of version edits. An `EditCollector` gathers edits, checks them against
the blob storages and applies them together: one edit in `LogAndApply`, the whole log on recovery.
-/

namespace AegonKV

variable {μ : Type}

/-- `μ` is the metadata of a blob file. The obsolete sequence of a deletion is not encoded, so a
decoded edit has 0 there. -/
structure VersionEdit (μ : Type) where
  columnFamilyId : UInt32
  nextFileNumber : Option UInt64
  addedFiles : List (UInt64 × μ)
  deletedFiles : List (UInt64 × ℕ)
  deriving DecidableEq, Repr

structure CFEditCollector (μ : Type) where
  addedFiles : List (UInt64 × μ)
  deletedFiles : List (UInt64 × ℕ)

namespace CFEditCollector

def addFile (c : CFEditCollector μ) (file : UInt64 × μ) : Except Status (CFEditCollector μ) :=
  if file.1 ∈ c.addedFiles.map (·.1) then
    .error (.corruption ("Blob file " ++ toString file.1 ++ " has been added twice"))
  else .ok { c with addedFiles := c.addedFiles ++ [file] }

def deleteFile (c : CFEditCollector μ) (file : UInt64 × ℕ) : Except Status (CFEditCollector μ) :=
  if file.1 ∈ c.deletedFiles.map (·.1) then
    .error (.corruption ("Blob file " ++ toString file.1 ++ " has been deleted twice"))
  else .ok { c with deletedFiles := c.deletedFiles ++ [file] }

/-- `Seal`. The storage tells whether it has a file and whether the file is obsolete. -/
def sealed (c : CFEditCollector μ) (storage : UInt64 → Option Bool) : Except Status Unit := do
  c.addedFiles.forM fun file =>
    match storage file.1 with
    | none => .ok ()
    | some true =>
      .error (.corruption ("Blob file " ++ toString file.1 ++ " has been deleted before"))
    | some false =>
      .error (.corruption ("Blob file " ++ toString file.1 ++ " has been added before"))
  c.deletedFiles.forM fun file =>
    if file.1 ∈ c.addedFiles.map (·.1) then .ok ()
    else
      match storage file.1 with
      | none => .error (.corruption ("Blob file " ++ toString file.1 ++ " doesn't exist before"))
      | some true =>
        .error (.corruption ("Blob file " ++ toString file.1 ++ " has been deleted already"))
      | some false => .ok ()

/-- The files `Apply` hands to `AddBlobFile`; paired additions and deletions are skipped. -/
def newFiles (c : CFEditCollector μ) : List (UInt64 × μ) :=
  c.addedFiles.filter fun file => file.1 ∉ c.deletedFiles.map (·.1)

end CFEditCollector

structure EditCollector (μ : Type) where
  columnFamilies : UInt32 → CFEditCollector μ
  nextFileNumber : Option UInt64

namespace EditCollector

def empty : EditCollector μ := ⟨fun _ => ⟨[], []⟩, none⟩

def nextAfter (current edit : Option UInt64) : Except Status (Option UInt64) :=
  match edit with
  | none => .ok current
  | some n =>
    if n < current.getD 0 then
      .error (.corruption ("Edit has a smaller next file number " ++ toString n ++
        " than current " ++ toString (current.getD 0)))
    else .ok (some n)

def addEdit (c : EditCollector μ) (edit : VersionEdit μ) : Except Status (EditCollector μ) := do
  let cf ← edit.addedFiles.foldlM CFEditCollector.addFile (c.columnFamilies edit.columnFamilyId)
  let cf ← edit.deletedFiles.foldlM CFEditCollector.deleteFile cf
  let next ← nextAfter c.nextFileNumber edit.nextFileNumber
  return ⟨Function.update c.columnFamilies edit.columnFamilyId cf, next⟩

end EditCollector

/-- `BlobFileSet::Recover` for a column family with an empty storage: the files that are live after
the replay of the edits. -/
def recover (cf : UInt32) (edits : List (VersionEdit μ)) : Except Status (List (UInt64 × μ)) := do
  let c ← edits.foldlM EditCollector.addEdit .empty
  (c.columnFamilies cf).sealed fun _ => none
  match c.nextFileNumber with
  | none => .error (.corruption "No next file number in manifest file")
  | some _ => .ok (c.columnFamilies cf).newFiles

/-! ## Logs that replay -/

def addedFiles (edits : List (VersionEdit μ)) : List (UInt64 × μ) :=
  edits.flatMap (·.addedFiles)

def deletedFiles (edits : List (VersionEdit μ)) : List (UInt64 × ℕ) :=
  edits.flatMap (·.deletedFiles)

def Added (edits : List (VersionEdit μ)) (f : UInt64) : Prop :=
  f ∈ (addedFiles edits).map (·.1)

def Deleted (edits : List (VersionEdit μ)) (f : UInt64) : Prop :=
  f ∈ (deletedFiles edits).map (·.1)

instance (edits : List (VersionEdit μ)) (f : UInt64) : Decidable (Added edits f) :=
  inferInstanceAs (Decidable (_ ∈ _))

instance (edits : List (VersionEdit μ)) (f : UInt64) : Decidable (Deleted edits f) :=
  inferInstanceAs (Decidable (_ ∈ _))

/-- What may follow a log: new files, and deletions of files that are there. -/
structure Follows (cf : UInt32) (edits : List (VersionEdit μ)) (edit : VersionEdit μ) : Prop where
  column : edit.columnFamilyId = cf
  next : ∀ n, edit.nextFileNumber = some n →
    ∀ e ∈ edits, ∀ m, e.nextFileNumber = some m → m ≤ n
  added_nodup : (edit.addedFiles.map (·.1)).Nodup
  added : ∀ f ∈ edit.addedFiles.map (·.1), ¬Added edits f
  deleted_nodup : (edit.deletedFiles.map (·.1)).Nodup
  deleted : ∀ f ∈ edit.deletedFiles.map (·.1), Added edits f ∧ ¬Deleted edits f

inductive ManifestLog (cf : UInt32) : List (VersionEdit μ) → Prop
  | nil : ManifestLog cf []
  | snoc {edits : List (VersionEdit μ)} {edit : VersionEdit μ} (h : ManifestLog cf edits)
      (hedit : Follows cf edits edit) : ManifestLog cf (edits ++ [edit])

variable {cf : UInt32} {edits : List (VersionEdit μ)} {edit : VersionEdit μ} {f : UInt64}

theorem added_snoc : Added (edits ++ [edit]) f ↔ Added edits f ∨ f ∈ edit.addedFiles.map (·.1) := by
  simp only [Added, addedFiles, List.flatMap_append, List.flatMap_singleton, List.map_append,
    List.mem_append]

theorem deleted_snoc :
    Deleted (edits ++ [edit]) f ↔ Deleted edits f ∨ f ∈ edit.deletedFiles.map (·.1) := by
  simp only [Deleted, deletedFiles, List.flatMap_append, List.flatMap_singleton, List.map_append,
    List.mem_append]

theorem Added.of_take {m : ℕ} (h : Added (edits.take m) f) : Added edits f := by
  obtain ⟨file, hfile, rfl⟩ := List.mem_map.mp h
  obtain ⟨e, he, hmem⟩ := List.mem_flatMap.mp hfile
  exact List.mem_map_of_mem (List.mem_flatMap.mpr ⟨e, List.mem_of_mem_take he, hmem⟩)

theorem Added.take_mono {m n : ℕ} (h : Added (edits.take m) f) (hmn : m ≤ n) :
    Added (edits.take n) f := by
  have : (edits.take n).take m = edits.take m := by rw [List.take_take, Nat.min_eq_left hmn]
  exact Added.of_take (m := m) (this ▸ h)

theorem Deleted.of_take {m : ℕ} (h : Deleted (edits.take m) f) : Deleted edits f := by
  obtain ⟨file, hfile, rfl⟩ := List.mem_map.mp h
  obtain ⟨e, he, hmem⟩ := List.mem_flatMap.mp hfile
  exact List.mem_map_of_mem (List.mem_flatMap.mpr ⟨e, List.mem_of_mem_take he, hmem⟩)

/-- Whatever is lost at the end, the rest is such a log. -/
theorem ManifestLog.take (h : ManifestLog cf edits) (m : ℕ) : ManifestLog cf (edits.take m) := by
  induction h with
  | nil =>
      rw [List.take_nil]
      exact .nil
  | @snoc edits edit hlog hedit ih =>
      rcases Nat.lt_or_ge edits.length m with hm | hm
      · rw [List.take_of_length_le (by simp; omega)]
        exact hlog.snoc hedit
      · rw [List.take_append_of_le_length hm]
        exact ih

/-! ## Replay -/

theorem foldlM_addFile {files : List (UInt64 × μ)} {c : CFEditCollector μ}
    (hn : (files.map (·.1)).Nodup)
    (hfresh : ∀ f ∈ files.map (·.1), f ∉ c.addedFiles.map (·.1)) :
    files.foldlM CFEditCollector.addFile c =
      .ok { c with addedFiles := c.addedFiles ++ files } := by
  induction files generalizing c with
  | nil => simp [pure, Except.pure]
  | cons file files ih =>
      obtain ⟨hfile, hn⟩ := List.nodup_cons.mp hn
      have hadd : c.addFile file = .ok { c with addedFiles := c.addedFiles ++ [file] } :=
        if_neg (hfresh file.1 (by simp))
      rw [List.foldlM_cons, hadd]
      change files.foldlM CFEditCollector.addFile _ = _
      rw [ih hn]
      · simp
      · intro f hf hmem
        simp only [List.map_append, List.map_singleton, List.mem_append, List.mem_singleton] at hmem
        rcases hmem with hmem | rfl
        · exact hfresh f (List.mem_cons_of_mem _ hf) hmem
        · exact hfile hf

theorem foldlM_deleteFile {files : List (UInt64 × ℕ)} {c : CFEditCollector μ}
    (hn : (files.map (·.1)).Nodup)
    (hfresh : ∀ f ∈ files.map (·.1), f ∉ c.deletedFiles.map (·.1)) :
    files.foldlM CFEditCollector.deleteFile c =
      .ok { c with deletedFiles := c.deletedFiles ++ files } := by
  induction files generalizing c with
  | nil => simp [pure, Except.pure]
  | cons file files ih =>
      obtain ⟨hfile, hn⟩ := List.nodup_cons.mp hn
      have hdel : c.deleteFile file = .ok { c with deletedFiles := c.deletedFiles ++ [file] } :=
        if_neg (hfresh file.1 (by simp))
      rw [List.foldlM_cons, hdel]
      change files.foldlM CFEditCollector.deleteFile _ = _
      rw [ih hn]
      · simp
      · intro f hf hmem
        simp only [List.map_append, List.map_singleton, List.mem_append, List.mem_singleton] at hmem
        rcases hmem with hmem | rfl
        · exact hfresh f (List.mem_cons_of_mem _ hf) hmem
        · exact hfile hf

structure Collected (cf : UInt32) (edits : List (VersionEdit μ)) (c : EditCollector μ) : Prop where
  added : (c.columnFamilies cf).addedFiles = addedFiles edits
  deleted : (c.columnFamilies cf).deletedFiles = deletedFiles edits
  next : ∀ n, c.nextFileNumber = some n → ∃ e ∈ edits, e.nextFileNumber = some n
  hasNext : (∃ e ∈ edits, e.nextFileNumber ≠ none) → c.nextFileNumber ≠ none

theorem nextAfter_spec {current next : Option UInt64}
    (h : ∀ n, next = some n → ∀ m, current = some m → m ≤ n) :
    EditCollector.nextAfter current next = .ok (next.or current) := by
  cases next with
  | none => rfl
  | some n =>
      refine if_neg (UInt64.not_lt.mpr ?_)
      cases current with
      | none => exact UInt64.zero_le
      | some m => exact h n rfl m rfl

/-- An edit with new numbers and no smaller next file number is collected. -/
theorem addEdit_of_fresh {c : EditCollector μ}
    (hna : (edit.addedFiles.map (·.1)).Nodup) (hnd : (edit.deletedFiles.map (·.1)).Nodup)
    (hadd : ∀ f ∈ edit.addedFiles.map (·.1),
      f ∉ (c.columnFamilies edit.columnFamilyId).addedFiles.map (·.1))
    (hdel : ∀ f ∈ edit.deletedFiles.map (·.1),
      f ∉ (c.columnFamilies edit.columnFamilyId).deletedFiles.map (·.1))
    (hnext : ∀ n, edit.nextFileNumber = some n → ∀ m, c.nextFileNumber = some m → m ≤ n) :
    c.addEdit edit = .ok ⟨Function.update c.columnFamilies edit.columnFamilyId
      ⟨(c.columnFamilies edit.columnFamilyId).addedFiles ++ edit.addedFiles,
        (c.columnFamilies edit.columnFamilyId).deletedFiles ++ edit.deletedFiles⟩,
      edit.nextFileNumber.or c.nextFileNumber⟩ := by
  have ha := foldlM_addFile (c := c.columnFamilies edit.columnFamilyId) hna hadd
  have hd := foldlM_deleteFile
    (c := { c.columnFamilies edit.columnFamilyId with
      addedFiles := (c.columnFamilies edit.columnFamilyId).addedFiles ++ edit.addedFiles })
    hnd hdel
  simp only [EditCollector.addEdit, bind, Except.bind, ha, hd, nextAfter_spec hnext, pure,
    Except.pure]

theorem ManifestLog.collect (h : ManifestLog cf edits) :
    ∃ c, edits.foldlM EditCollector.addEdit .empty = .ok c ∧ Collected cf edits c := by
  induction h with
  | nil => exact ⟨.empty, rfl, rfl, rfl, fun n hn => (by cases hn), fun hc => (by simp at hc)⟩
  | @snoc edits edit hlog hedit ih =>
      obtain ⟨c, hc, hcol⟩ := ih
      have hcf := hedit.column
      subst hcf
      have hadd := addEdit_of_fresh (c := c) hedit.added_nodup hedit.deleted_nodup
        (fun f hf => by rw [hcol.added]; exact hedit.added f hf)
        (fun f hf => by rw [hcol.deleted]; exact (hedit.deleted f hf).2)
        (fun n hn m hm => by
          obtain ⟨e, he, heq⟩ := hcol.next m hm
          exact hedit.next n hn e he m heq)
      refine ⟨⟨Function.update c.columnFamilies edit.columnFamilyId
        ⟨(c.columnFamilies edit.columnFamilyId).addedFiles ++ edit.addedFiles,
          (c.columnFamilies edit.columnFamilyId).deletedFiles ++ edit.deletedFiles⟩,
        edit.nextFileNumber.or c.nextFileNumber⟩, ?_, ?_, ?_, ?_, ?_⟩
      · rw [List.foldlM_append, hc]
        simp only [bind, Except.bind, List.foldlM_cons, List.foldlM_nil, hadd, pure, Except.pure]
      · simp [hcol.added, addedFiles]
      · simp [hcol.deleted, deletedFiles]
      · intro n hn
        rcases Option.or_eq_some_iff.mp hn with hn | ⟨-, hn⟩
        · exact ⟨edit, by simp, hn⟩
        · obtain ⟨e, he, heq⟩ := hcol.next n hn
          exact ⟨e, List.mem_append_left _ he, heq⟩
      · rintro ⟨e, he, hne⟩ hnone
        obtain ⟨hedit, hcn⟩ := Option.or_eq_none_iff.mp hnone
        rcases List.mem_append.mp he with he | he
        · exact hcol.hasNext ⟨e, he, hne⟩ hcn
        · exact hne (List.mem_singleton.mp he ▸ hedit)

theorem ManifestLog.added_of_deleted (h : ManifestLog cf edits) (hf : Deleted edits f) :
    Added edits f := by
  induction h with
  | nil => cases hf
  | @snoc edits edit hlog hedit ih =>
      rw [added_snoc]
      rcases deleted_snoc.mp hf with hf | hf
      · exact Or.inl (ih hf)
      · exact Or.inl (hedit.deleted f hf).1

theorem forM_ok {α : Type} {l : List α} {g : α → Except Status Unit} (h : ∀ x ∈ l, g x = .ok ()) :
    l.forM g = .ok () := by
  induction l with
  | nil => rfl
  | cons x l ih =>
      change (g x >>= fun _ => l.forM g) = .ok ()
      rw [h x List.mem_cons_self]
      exact ih fun y hy => h y (List.mem_cons_of_mem _ hy)

/-- The log replays, and the files it adds and does not delete are live. -/
theorem ManifestLog.recover (h : ManifestLog cf edits)
    (hne : ∃ e ∈ edits, e.nextFileNumber ≠ none) :
    ∃ files, AegonKV.recover cf edits = .ok files ∧
      ∀ f, f ∈ files.map (·.1) ↔ Added edits f ∧ ¬Deleted edits f := by
  obtain ⟨c, hc, hcol⟩ := h.collect
  have hseal : (c.columnFamilies cf).sealed (fun _ => none) = .ok () := by
    have hadd : (c.columnFamilies cf).addedFiles.forM (fun file : UInt64 × μ =>
        match (none : Option Bool) with
        | none => .ok ()
        | some true =>
          .error (.corruption ("Blob file " ++ toString file.1 ++ " has been deleted before"))
        | some false =>
          .error (.corruption ("Blob file " ++ toString file.1 ++ " has been added before"))) =
        (.ok () : Except Status Unit) := forM_ok fun _ _ => rfl
    rw [CFEditCollector.sealed, hadd]
    refine forM_ok fun file hfile => if_pos ?_
    rw [hcol.deleted] at hfile
    rw [hcol.added]
    exact h.added_of_deleted (List.mem_map_of_mem hfile)
  obtain ⟨n, hn⟩ := Option.ne_none_iff_exists'.mp (hcol.hasNext hne)
  refine ⟨(c.columnFamilies cf).newFiles, ?_, fun f => ?_⟩
  · simp only [AegonKV.recover, hc, bind, Except.bind, hseal, hn]
  · simp only [CFEditCollector.newFiles, hcol.added, hcol.deleted, Added, Deleted, List.mem_map,
      List.mem_filter, decide_eq_true_eq]
    constructor
    · rintro ⟨file, ⟨hadd, hdel⟩, rfl⟩
      exact ⟨⟨file, hadd, rfl⟩, hdel⟩
    · rintro ⟨⟨file, hadd, rfl⟩, hdel⟩
      exact ⟨file, ⟨hadd, hdel⟩, rfl⟩

end AegonKV

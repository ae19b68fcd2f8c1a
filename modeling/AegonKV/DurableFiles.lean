import Mathlib.Data.List.Basic
import Mathlib.Logic.Function.Basic

/-!
# Files that a crash cuts short

What is appended to a file is safe once the file is synced. A crash leaves of every file at least its
synced part, up to any point behind that. The entries of the directory are safe as soon as an
operation on them has returned.
-/

namespace DurableFiles

variable {ν β : Type*} [DecidableEq ν]

structure File (β : Type*) where
  content : List β
  synced : ℕ

abbrev Dir (ν β : Type*) := ν → Option (File β)

namespace Dir

/-- An empty file, also in place of one that is there. -/
def create (d : Dir ν β) (name : ν) : Dir ν β := Function.update d name (some ⟨[], 0⟩)

def append (d : Dir ν β) (name : ν) (content : List β) : Dir ν β :=
  Function.update d name ((d name).map fun f => { f with content := f.content ++ content })

def sync (d : Dir ν β) (name : ν) : Dir ν β :=
  Function.update d name ((d name).map fun f => { f with synced := f.content.length })

def rename (d : Dir ν β) (src dst : ν) : Dir ν β :=
  Function.update (Function.update d dst (d src)) src none

def delete (d : Dir ν β) (name : ν) : Dir ν β := Function.update d name none

omit [DecidableEq ν] in
/-- `kept` says how much of the unsynced part of each file survives. -/
def crash (d : Dir ν β) (kept : ν → ℕ) : Dir ν β := fun name =>
  (d name).map fun f => { f with content := f.content.take (f.synced + kept name) }

variable {d : Dir ν β} {name other : ν} {f : File β}

@[simp] theorem create_self : d.create name name = some ⟨[], 0⟩ := Function.update_self ..

@[simp] theorem create_ne (h : other ≠ name) : d.create name other = d other :=
  Function.update_of_ne h ..

theorem append_self (h : d name = some f) (content : List β) :
    d.append name content name = some { f with content := f.content ++ content } := by
  rw [append, Function.update_self, h]
  rfl

@[simp] theorem append_ne (h : other ≠ name) (content : List β) :
    d.append name content other = d other := Function.update_of_ne h ..

/-- A file written from its beginning. -/
theorem write_self (content : List β) :
    (d.create name).append name content name = some ⟨content, 0⟩ := by
  rw [append_self create_self, List.nil_append]

theorem write_ne (h : other ≠ name) (content : List β) :
    (d.create name).append name content other = d other := by
  rw [append_ne h, create_ne h]

theorem sync_self (h : d name = some f) :
    d.sync name name = some { f with synced := f.content.length } := by
  rw [sync, Function.update_self, h]
  rfl

@[simp] theorem sync_ne (h : other ≠ name) : d.sync name other = d other :=
  Function.update_of_ne h ..

theorem rename_dst {src dst : ν} (h : dst ≠ src) : d.rename src dst dst = d src := by
  rw [rename, Function.update_of_ne h, Function.update_self]

@[simp] theorem rename_ne {src dst : ν} (hsrc : other ≠ src) (hdst : other ≠ dst) :
    d.rename src dst other = d other := by
  rw [rename, Function.update_of_ne hsrc, Function.update_of_ne hdst]

@[simp] theorem delete_ne (h : other ≠ name) : d.delete name other = d other :=
  Function.update_of_ne h ..

omit [DecidableEq ν] in
/-- A file that is synced as a whole survives. -/
theorem crash_synced (h : d name = some f) (hsynced : f.synced = f.content.length) (kept : ν → ℕ) :
    d.crash kept name = some f := by
  rw [crash, h, Option.map_some, List.take_of_length_le (by omega)]

omit [DecidableEq ν] in
theorem crash_some (h : d name = some f) (kept : ν → ℕ) :
    d.crash kept name = some { f with content := f.content.take (f.synced + kept name) } := by
  rw [crash, h, Option.map_some]

omit [DecidableEq ν] in
theorem crash_none (h : d name = none) (kept : ν → ℕ) : d.crash kept name = none := by
  rw [crash, h, Option.map_none]

end Dir

end DurableFiles

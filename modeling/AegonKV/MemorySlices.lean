import AegonKV.ByteMemory

/-!
# Slices of memory and what a computation touches

A `Slice` is a range of addresses. Its bytes are what memory holds there, and nothing keeps a
program from going on behind its end. A `Traced` computation comes with the list of what it
touched. `Decodes` says that a reader of a slice touches nothing else, leaves an end of the slice,
and gives back what a function on lists of bytes gives back for its bytes.
-/

namespace MemorySlices
open ByteMemory LittleEndian

structure Slice where
  start : ℕ
  size : ℕ
  deriving DecidableEq, Repr

namespace Slice
variable {m : Mem} {a s t : Slice} {n : ℕ}

def bytes (m : Mem) (s : Slice) : Bytes := readBytes m s.start s.size

def removePrefix (s : Slice) (n : ℕ) : Slice := ⟨s.start + n, s.size - n⟩

/-- Every address of `a` is one of `s`. -/
def Within (a s : Slice) : Prop :=
  ∀ i, a.start ≤ i → i < a.start + a.size → s.start ≤ i ∧ i < s.start + s.size

/-- `t` is what is left of `s` behind some prefix. -/
def IsSuffix (t s : Slice) : Prop := s.start ≤ t.start ∧ t.start + t.size = s.start + s.size

@[simp] theorem length_bytes (m : Mem) (s : Slice) : (s.bytes m).length = s.size :=
  length_readBytes m s.start s.size

theorem Within.trans (hat : a.Within t) (hts : t.Within s) : a.Within s := fun i hlo hhi =>
  hts i (hat i hlo hhi).1 (hat i hlo hhi).2

theorem within_of_le (hlo : s.start ≤ a.start) (hhi : a.start + a.size ≤ s.start + s.size) :
    a.Within s := fun _ hai hia => ⟨hlo.trans hai, hia.trans_le hhi⟩

/-- A slice with any byte in it that ends behind `s` is not within it. -/
theorem not_within_of_lt (hpos : 0 < a.size) (hend : s.start + s.size < a.start + a.size) :
    ¬a.Within s := by
  intro h
  have hlast := h (a.start + a.size - 1) (by omega) (by omega)
  omega

theorem isSuffix_refl (s : Slice) : s.IsSuffix s := ⟨le_rfl, rfl⟩

theorem IsSuffix.trans (h : a.IsSuffix t) (ht : t.IsSuffix s) : a.IsSuffix s :=
  ⟨ht.1.trans h.1, h.2.trans ht.2⟩

theorem IsSuffix.within (h : t.IsSuffix s) : t.Within s := within_of_le h.1 h.2.le

theorem isSuffix_removePrefix (h : n ≤ s.size) : (s.removePrefix n).IsSuffix s := by
  refine ⟨Nat.le_add_right _ _, ?_⟩
  simp only [removePrefix]
  omega

theorem bytes_eq_append (m : Mem) (h : n ≤ s.size) :
    s.bytes m = (⟨s.start, n⟩ : Slice).bytes m ++ (s.removePrefix n).bytes m := by
  have hsize : s.size = n + (s.size - n) := by omega
  rw [bytes, hsize, readBytes_add]
  rfl

theorem bytes_take (m : Mem) (h : n ≤ s.size) :
    (s.bytes m).take n = (⟨s.start, n⟩ : Slice).bytes m := by
  rw [bytes_eq_append m h, List.take_left' (length_bytes m ⟨s.start, n⟩)]

theorem bytes_drop (m : Mem) (h : n ≤ s.size) :
    (s.bytes m).drop n = (s.removePrefix n).bytes m := by
  rw [bytes_eq_append m h, List.drop_left' (length_bytes m ⟨s.start, n⟩)]

theorem bytes_cons (m : Mem) (h : s.size ≠ 0) :
    s.bytes m = m s.start :: (s.removePrefix 1).bytes m :=
  bytes_eq_append m (Nat.one_le_iff_ne_zero.mpr h)

theorem bytes_nil (m : Mem) (h : s.size = 0) : s.bytes m = [] := by
  rw [bytes, h, readBytes]

theorem bytes_writeBytes (m : Mem) (start : ℕ) (bs : Bytes) :
    (⟨start, bs.length⟩ : Slice).bytes (writeBytes m start bs) = bs := holds_writeBytes m start bs

end Slice

/-- A result with everything that was touched on the way to it. -/
structure Traced (ι α : Type) where
  value : α
  touched : List ι

namespace Traced
variable {ι κ α β : Type} {p : ι → Prop}

instance : Monad (Traced ι) where
  pure a := ⟨a, []⟩
  bind x f := ⟨(f x.value).value, x.touched ++ (f x.value).touched⟩

@[simp] theorem value_pure (a : α) : (pure a : Traced ι α).value = a := rfl

@[simp] theorem value_bind (x : Traced ι α) (f : α → Traced ι β) :
    (x >>= f).value = (f x.value).value := rfl

/-- Goes on with what a reader found, and gives up where it found nothing. -/
def andThen (x : Traced ι (Option α)) (k : α → Traced ι (Option β)) : Traced ι (Option β) := do
  match ← x with
  | none => return none
  | some a => k a

theorem andThen_of_none {x : Traced ι (Option α)} (h : x.value = none)
    (k : α → Traced ι (Option β)) : (x.andThen k).value = none := by
  rw [andThen, value_bind, h, value_pure]

theorem andThen_of_some {x : Traced ι (Option α)} {a : α} (h : x.value = some a)
    (k : α → Traced ι (Option β)) : (x.andThen k).value = (k a).value := by
  rw [andThen, value_bind, h]

/-- Everything that was touched satisfies `p`. -/
def All (p : ι → Prop) (x : Traced ι α) : Prop := ∀ i ∈ x.touched, p i

@[simp] theorem all_pure (a : α) : (pure a : Traced ι α).All p := fun _ hi => (by cases hi)

@[simp] theorem all_bind (x : Traced ι α) (f : α → Traced ι β) :
    (x >>= f).All p ↔ x.All p ∧ (f x.value).All p := List.forall_mem_append

theorem All.imp {q : ι → Prop} {x : Traced ι α} (h : x.All p) (hpq : ∀ i, p i → q i) : x.All q :=
  fun i hi => hpq i (h i hi)

/-- The same computation, with another account of what it touched. -/
def mapTouched (f : ι → κ) (x : Traced ι α) : Traced κ α := ⟨x.value, x.touched.map f⟩

@[simp] theorem value_mapTouched (f : ι → κ) (x : Traced ι α) : (x.mapTouched f).value = x.value := rfl

@[simp] theorem all_mapTouched {q : κ → Prop} (f : ι → κ) (x : Traced ι α) :
    (x.mapTouched f).All q ↔ x.All fun i => q (f i) := List.forall_mem_map

end Traced

def read (m : Mem) (s : Slice) : Traced Slice Bytes := ⟨s.bytes m, [s]⟩

@[simp] theorem value_read (m : Mem) (s : Slice) : (read m s).value = s.bytes m := rfl

@[simp] theorem all_read {p : Slice → Prop} (m : Mem) (s : Slice) : (read m s).All p ↔ p s :=
  List.forall_mem_singleton

/-- A reader that stays inside its slice and does to it what `f` does to its bytes; `view` is what
a value of the reader stands for. -/
structure Decodes {α β : Type} (m : Mem) (view : α → β) (s : Slice)
    (read : Traced Slice (Option (α × Slice))) (result : Option (β × Bytes)) : Prop where
  inside : read.All (·.Within s)
  value : read.value.map (fun r => (view r.1, r.2.bytes m)) = result
  rest : ∀ r, read.value = some r → r.2.IsSuffix s

namespace Decodes
variable {α β γ δ : Type} {m : Mem} {view : α → β} {view' : γ → δ} {s : Slice}

theorem none (m : Mem) (view : α → β) (s : Slice) : Decodes m view s (pure none) none :=
  ⟨Traced.all_pure _, rfl, fun _ hr => (by cases hr)⟩

theorem some {a : α} {rest : Slice} (h : rest.IsSuffix s) :
    Decodes m view s (pure (some (a, rest))) (some (view a, rest.bytes m)) :=
  ⟨Traced.all_pure _, rfl, fun _ hr => Option.some.inj hr ▸ h⟩

/-- Bytes are read out of the slice first. -/
theorem read_bind {a : Slice} {k : Bytes → Traced Slice (Option (α × Slice))}
    {result : Option (β × Bytes)} (ha : a.Within s) (h : Decodes m view s (k (a.bytes m)) result) :
    Decodes m view s (read m a >>= k) result :=
  ⟨(Traced.all_bind _ _).mpr ⟨(all_read m a).mpr ha, h.inside⟩, h.value, h.rest⟩

/-- What decodes the rest of a slice may run on the slice. -/
theorem of_suffix {rest : Slice} {x : Traced Slice (Option (α × Slice))}
    {result : Option (β × Bytes)} (h : Decodes m view rest x result) (hrest : rest.IsSuffix s) :
    Decodes m view s x result :=
  ⟨h.inside.imp fun _ ha => ha.trans hrest.within, h.value, fun r hr => (h.rest r hr).trans hrest⟩

/-- One reader after another, on the slice the first leaves. -/
theorem andThen {x : Traced Slice (Option (α × Slice))} {result : Option (β × Bytes)}
    {k : α × Slice → Traced Slice (Option (γ × Slice))}
    {f : β × Bytes → Option (δ × Bytes)} (hx : Decodes m view s x result)
    (hk : ∀ a rest, rest.IsSuffix s → Decodes m view' s (k (a, rest)) (f (view a, rest.bytes m))) :
    Decodes m view' s (x.andThen k) (result.bind f) := by
  have hvalue := hx.value
  cases hread : x.value with
  | none =>
      rw [hread] at hvalue
      subst hvalue
      have hnone := Traced.andThen_of_none hread k
      refine ⟨(Traced.all_bind _ _).mpr ⟨hx.inside, ?_⟩, ?_, ?_⟩
      · rw [hread]
        exact Traced.all_pure _
      · rw [hnone]
        rfl
      · intro r hr
        cases hnone.symm.trans hr
  | some r =>
      rw [hread] at hvalue
      subst hvalue
      have hnext := hk r.1 r.2 (hx.rest r hread)
      have hsome := Traced.andThen_of_some hread k
      refine ⟨(Traced.all_bind _ _).mpr ⟨hx.inside, ?_⟩, ?_, ?_⟩
      · rw [hread]
        exact hnext.inside
      · rw [hsome]
        exact hnext.value
      · intro r' hr
        exact hnext.rest r' (hsome.symm.trans hr)

end Decodes
end MemorySlices

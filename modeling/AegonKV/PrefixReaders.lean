import Mathlib.Data.Nat.Notation
import Mathlib.Tactic.SplitIfs

/-!
# Readers of prefixes

A reader takes a value from the front of a list of tokens and hands over the rest. `Reads get image`
says that it accepts exactly the inputs that begin with an image of the value. The images are
described without a reader, and those of a sequence are put together from those of its parts.
-/

namespace PrefixReader

variable {τ α β : Type*}

def Reads (get : List τ → Option (α × List τ)) (image : List τ → α → Prop) : Prop :=
  ∀ src v rest, get src = some (v, rest) ↔ ∃ ts, image ts v ∧ src = ts ++ rest

/-- What is read does not depend on what follows. -/
theorem Reads.append {get : List τ → Option (α × List τ)} {image : List τ → α → Prop}
    (h : Reads get image) {src rest : List τ} {v : α} (hget : get src = some (v, rest))
    (tail : List τ) : get (src ++ tail) = some (v, rest ++ tail) := by
  obtain ⟨ts, himage, rfl⟩ := (h src v rest).mp hget
  exact (h _ v _).mpr ⟨ts, himage, List.append_assoc ts rest tail⟩

theorem Reads.congr {get : List τ → Option (α × List τ)} {image image' : List τ → α → Prop}
    (h : Reads get image) (himage : ∀ ts v, image ts v ↔ image' ts v) : Reads get image' := by
  intro src v rest
  rw [h src v rest]
  exact exists_congr fun ts => and_congr_left fun _ => himage ts v

/-- An image of a value, and behind it one of another value. -/
def Then (image : List τ → α → Prop) (image' : α → List τ → β → Prop) (ts : List τ) (w : β) : Prop :=
  ∃ v ts₁ ts₂, image ts₁ v ∧ image' v ts₂ w ∧ ts = ts₁ ++ ts₂

theorem Reads.bind {get : List τ → Option (α × List τ)} {image : List τ → α → Prop}
    {get' : α → List τ → Option (β × List τ)} {image' : α → List τ → β → Prop}
    (h : Reads get image) (h' : ∀ v, Reads (get' v) (image' v)) :
    Reads (fun src => (get src).bind fun p => get' p.1 p.2) (Then image image') := by
  intro src w rest
  rw [Option.bind_eq_some_iff]
  constructor
  · rintro ⟨⟨v, tail⟩, hget, hget'⟩
    obtain ⟨ts₁, himage, rfl⟩ := (h src v tail).mp hget
    obtain ⟨ts₂, himage', rfl⟩ := (h' v tail w rest).mp hget'
    exact ⟨ts₁ ++ ts₂, ⟨v, ts₁, ts₂, himage, himage', rfl⟩, (List.append_assoc ts₁ ts₂ rest).symm⟩
  · rintro ⟨ts, ⟨v, ts₁, ts₂, himage, himage', rfl⟩, rfl⟩
    refine ⟨(v, ts₂ ++ rest), (h _ _ _).mpr ⟨ts₁, himage, List.append_assoc ts₁ ts₂ rest⟩, ?_⟩
    exact (h' v _ _ _).mpr ⟨ts₂, himage', rfl⟩

/-- An image of a value that stands for another one. -/
def Mapped (image : List τ → α → Prop) (f : α → β) (ts : List τ) (w : β) : Prop :=
  ∃ v, image ts v ∧ w = f v

theorem Reads.map {get : List τ → Option (α × List τ)} {image : List τ → α → Prop}
    (h : Reads get image) (f : α → β) :
    Reads (fun src => (get src).map fun p => (f p.1, p.2)) (Mapped image f) := by
  intro src w rest
  rw [Option.map_eq_some_iff]
  constructor
  · rintro ⟨⟨v, tail⟩, hget, heq⟩
    obtain ⟨rfl, rfl⟩ := Prod.mk.inj heq
    obtain ⟨ts, himage, rfl⟩ := (h src v tail).mp hget
    exact ⟨ts, ⟨v, himage, rfl⟩, rfl⟩
  · rintro ⟨ts, ⟨v, himage, rfl⟩, rfl⟩
    exact ⟨(v, rest), (h _ _ _).mpr ⟨ts, himage, rfl⟩, rfl⟩

theorem reads_none : Reads (fun _ : List τ => (none : Option (α × List τ))) fun _ _ => False := by
  intro src v rest
  exact iff_of_false nofun fun ⟨_, hfalse, _⟩ => hfalse

def takeExactly (n : ℕ) (src : List τ) : Option (List τ × List τ) :=
  if src.length < n then none else some (src.take n, src.drop n)

theorem reads_takeExactly (n : ℕ) :
    Reads (takeExactly (τ := τ) n) fun ts v => ts = v ∧ v.length = n := by
  intro src v rest
  rw [takeExactly]
  split_ifs with hshort
  · refine iff_of_false nofun ?_
    rintro ⟨ts, ⟨rfl, hlen⟩, rfl⟩
    rw [List.length_append] at hshort
    omega
  · rw [Option.some.injEq, Prod.mk.injEq]
    constructor
    · rintro ⟨rfl, rfl⟩
      exact ⟨_, ⟨rfl, List.length_take_of_le (Nat.le_of_not_lt hshort)⟩,
        (List.take_append_drop n src).symm⟩
    · rintro ⟨ts, ⟨rfl, rfl⟩, rfl⟩
      exact ⟨List.take_left, List.drop_left⟩

/-- Images of all values of a list in a row. -/
inductive Many (image : List τ → α → Prop) : List τ → List α → Prop
  | nil : Many image [] []
  | cons {ts ts' : List τ} {v : α} {vs : List α} (h : image ts v) (hrest : Many image ts' vs) :
      Many image (ts ++ ts') (v :: vs)

end PrefixReader

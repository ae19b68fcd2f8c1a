import AegonKV.PreprocessDeletes
import AegonKV.SplitResolution
import AegonKV.VersionedLsm

/-!
# Exposed records

A record is exposed in the versions of a key when a version names it and neither a user write, nor
an index without an old part, nor a write-back of that very record lies above. Resolving a piece of
the versions exposes nothing new, although it may bring an older version to the top, as long as the
piece does not begin with a write-back over a Deletion: there the pass makes an index up.
-/

namespace AegonKV
open LittleEndian

namespace StreamVersion

def newPart : StreamVersion → Option BlobIndexType
  | .version v => v.newPart
  | .deletion => none

/-- What a lookup makes of a version, which leaves the old part out. -/
def entry : StreamVersion → LsmEntry
  | .version (.value b) => .value b
  | .version (.plain p) => .blobIndex p
  | .version (.writeBack new _) => .blobIndex new
  | .deletion => .deletion

end StreamVersion

/-- The versions, newest first, may still lead to the record. -/
def exposed (p : BlobIndexType) : List StreamVersion → Bool
  | [] => false
  | .deletion :: _ => false
  | .version (.value _) :: _ => false
  | .version (.plain q) :: _ => q = p
  | .version (.writeBack n o) :: vs => n = p || !o.sameRecord p && exposed p vs

def writeBackOverDeletion : List StreamVersion → Bool
  | .version (.writeBack _ _) :: .deletion :: _ => true
  | _ => false

variable {p : BlobIndexType} {vs : List StreamVersion}

/-- The newest version exposes what it names. -/
theorem exposed_of_newPart {v : StreamVersion} (h : v.newPart = some p) (vs : List StreamVersion) :
    exposed p (v :: vs) = true := by
  rcases v with (b | q | ⟨n, o⟩) | _
  · cases h
  · obtain rfl := Option.some.inj h
    exact decide_eq_true rfl
  · obtain rfl := Option.some.inj h
    rw [exposed, decide_eq_true rfl, Bool.true_or]
  · cases h

theorem exists_of_exposed (h : exposed p vs = true) : ∃ v ∈ vs, v.newPart = some p := by
  induction vs with
  | nil => cases h
  | cons v vs ih =>
      rcases v with (b | q | ⟨n, o⟩) | _
      · cases h
      · exact ⟨.version (.plain q), List.mem_cons_self, congrArg some (of_decide_eq_true h)⟩
      · rw [exposed, Bool.or_eq_true, Bool.and_eq_true, decide_eq_true_eq] at h
        rcases h with rfl | ⟨-, h⟩
        · exact ⟨.version (.writeBack n o), List.mem_cons_self, rfl⟩
        · obtain ⟨v, hv, hp⟩ := ih h
          exact ⟨v, List.mem_cons_of_mem _ hv, hp⟩
      · cases h

/-- A newer version exposes nothing but what it names. -/
theorem exposed_cons_of_ne {v : StreamVersion} (hv : v.newPart ≠ some p)
    (h : exposed p vs = false) : exposed p (v :: vs) = false := by
  rcases v with (b | q | ⟨n, o⟩) | _
  · rfl
  · exact decide_eq_false fun hq => hv (congrArg some hq)
  · rw [exposed, h, Bool.and_false, Bool.or_false]
    exact decide_eq_false fun hn => hv (congrArg some hn)
  · rfl

theorem exposed_append_mono {older older' : List StreamVersion}
    (h : exposed p older' = true → exposed p older = true) (newer : List StreamVersion) :
    exposed p (newer ++ older') = true → exposed p (newer ++ older) = true := by
  induction newer with
  | nil => exact h
  | cons v newer ih =>
      rcases v with (b | q | ⟨n, o⟩) | _
      · exact id
      · exact id
      · rw [List.cons_append, List.cons_append, exposed, exposed, Bool.or_eq_true, Bool.or_eq_true,
          Bool.and_eq_true, Bool.and_eq_true]
        exact Or.imp id (And.imp id ih)
      · exact id

/-! ## Resolving versions -/

theorem combine_ne_writeBack (a v : StreamVersion) (n o : BlobIndexType) :
    a.combine v ≠ .version (.writeBack n o) := by
  rcases a with (b | q | ⟨m, d⟩) | _ <;> rcases v with (c | q' | ⟨m', d'⟩) | _ <;>
    simp [StreamVersion.combine, Version.combine]

theorem writeBackOverDeletion_combine (a v : StreamVersion) (vs : List StreamVersion) :
    writeBackOverDeletion (a.combine v :: vs) = false := by
  unfold writeBackOverDeletion
  split
  · rename_i n o rest heq
    exact absurd (List.cons.inj heq).1 (combine_ne_writeBack a v n o)
  · rfl

theorem exposed_combine {a v : StreamVersion} {vs : List StreamVersion}
    (hne : writeBackOverDeletion (a :: v :: vs) = false) (older : List StreamVersion) :
    exposed p (a.combine v :: older) = true → exposed p (a :: v :: older) = true := by
  -- what `combine` keeps of a write-back is its new part, or the record below that it does not name
  have hbelow : ∀ n o c : BlobIndexType, v.newPart = some c →
      exposed p (.version (.plain (if o.sameRecord c then n else c)) :: older) = true →
        exposed p (.version (.writeBack n o) :: v :: older) = true := by
    intro n o c hc h
    have hp : (if o.sameRecord c then n else c) = p := of_decide_eq_true h
    rw [exposed, Bool.or_eq_true, Bool.and_eq_true, decide_eq_true_eq]
    split_ifs at hp with hsame
    · exact Or.inl hp
    · refine Or.inr ⟨?_, exposed_of_newPart (hp ▸ hc) older⟩
      rw [← hp]
      simpa using hsame
  rcases a with (b | q | ⟨n, o⟩) | _
  · rcases v with (c | q' | ⟨m, d⟩) | _ <;> exact id
  · rcases v with (c | q' | ⟨m, d⟩) | _
    · exact nofun
    · exact id
    · exact id
    · exact id
  · rcases v with (c | q' | ⟨m, d⟩) | _
    · exact nofun
    · exact hbelow n o q' rfl
    · exact hbelow n o m rfl
    · cases hne
  · rcases v with (c | q' | ⟨m, d⟩) | _ <;> exact id

/-- Resolving the newest versions exposes nothing new. -/
theorem exposed_resolveStream {segment : List StreamVersion} {r : StreamVersion}
    (hne : writeBackOverDeletion segment = false) (hr : resolveStream segment = some r)
    (older : List StreamVersion) :
    exposed p (r :: older) = true → exposed p (segment ++ older) = true := by
  cases segment with
  | nil => cases hr
  | cons a segment =>
      obtain rfl := Option.some.inj hr
      clear hr
      induction segment generalizing a with
      | nil => exact id
      | cons v segment ih =>
          intro h
          exact exposed_combine hne _ (ih (a.combine v) (writeBackOverDeletion_combine a v segment) h)

theorem newPart_combine {a v : StreamVersion} {vs : List StreamVersion}
    (hne : writeBackOverDeletion (a :: v :: vs) = false) (h : (a.combine v).newPart = some p) :
    a.newPart = some p ∨ v.newPart = some p := by
  rcases a with (b | q | ⟨n, o⟩) | _ <;> rcases v with (c | q' | ⟨m, d⟩) | _
  case version.writeBack.deletion => cases hne
  case version.writeBack.version.plain =>
    simp only [StreamVersion.combine, Version.combine] at h
    split_ifs at h
    · exact Or.inl h
    · exact Or.inr h
  case version.writeBack.version.writeBack =>
    simp only [StreamVersion.combine, Version.combine] at h
    split_ifs at h
    · exact Or.inl h
    · exact Or.inr h
  case version.plain.version.value => exact Or.inr h
  case version.writeBack.version.value => exact Or.inr h
  all_goals exact Or.inl h

/-- What is kept of the versions names what one of them names. -/
theorem newPart_resolveStream {segment : List StreamVersion} {r : StreamVersion}
    (hne : writeBackOverDeletion segment = false) (hr : resolveStream segment = some r)
    (hp : r.newPart = some p) : ∃ v ∈ segment, v.newPart = some p := by
  cases segment with
  | nil => cases hr
  | cons a segment =>
      obtain rfl := Option.some.inj hr
      clear hr
      induction segment generalizing a with
      | nil => exact ⟨a, List.mem_cons_self, hp⟩
      | cons v segment ih =>
          obtain ⟨u, hu, hup⟩ := ih (a.combine v) (writeBackOverDeletion_combine a v segment) hp
          rcases List.mem_cons.mp hu with rfl | hu
          · rcases newPart_combine hne hup with h | h
            · exact ⟨a, List.mem_cons_self, h⟩
            · exact ⟨v, List.mem_cons_of_mem _ List.mem_cons_self, h⟩
          · exact ⟨u, List.mem_cons_of_mem _ (List.mem_cons_of_mem _ hu), hup⟩

end AegonKV

import AegonKV.OffloadedGC
import AegonKV.SplitResolution

/-!
# Reads under offloaded garbage collection

The versions of a key from the newest down to the first user write form a chain in which every
write-back names the record below it. Along a harmless run this chain is kept by every flush,
compaction and relocation, or the mutable memtable ends in one stale write-back over the current
Value, which the pending check looks through.
-/

namespace AegonKV.OffloadedGC
open LittleEndian AegonKV

variable {κ : Type}

/-- The newest versions lead to `r`, each write-back on the way naming the pointer below it. -/
def Fresh : List Version → Resolved → Prop
  | [], _ => False
  | .value v :: _, r => r = .value v
  | .plain p :: _, r => r = .pointer p
  | .writeBack n o :: vs, r => r = .pointer n ∧ ∃ c, Fresh vs (.pointer c) ∧ o.sameRecord c

theorem Fresh.head {vs : List Version} {r : Resolved} (h : Fresh vs r) :
    vs.head?.map Version.target = some r := by
  match vs, h with
  | .value v :: _, h => simp [Version.target, show r = .value v from h]
  | .plain p :: _, h => simp [Version.target, show r = .pointer p from h]
  | .writeBack n o :: _, h => simp [Version.target, h.1]

theorem Fresh.unique {vs : List Version} {r r' : Resolved} (h : Fresh vs r) (h' : Fresh vs r') :
    r = r' := Option.some.inj (h.head.symm.trans h'.head)

/-- Either the chain ends inside `A`, or `A` is all write-backs on top of a chain of `X`. -/
theorem Fresh.split {A X : List Version} {r : Resolved} (h : Fresh (A ++ X) r) :
    (∀ Y, Fresh (A ++ Y) r) ∨ ((∀ v ∈ A, v.isUserWrite = false) ∧ ∃ r₀, Fresh X r₀ ∧
      (∀ Y, Fresh Y r₀ → Fresh (A ++ Y) r) ∧ ∀ v, r₀ = .value v → A = []) := by
  induction A generalizing r with
  | nil => exact Or.inr ⟨by simp, r, h, fun Y hY => hY, fun _ _ => rfl⟩
  | cons v A ih =>
      cases v with
      | value b => exact Or.inl fun _ => h
      | plain p => exact Or.inl fun _ => h
      | writeBack n o =>
          obtain ⟨rfl, c, hc, ho⟩ := h
          obtain hin | ⟨hA, r₀, hX, hrep, hval⟩ := ih hc
          · exact Or.inl fun Y => ⟨rfl, c, hin Y, ho⟩
          · refine Or.inr ⟨?_, r₀, hX, fun Y hY => ⟨rfl, c, hrep Y hY, ho⟩, ?_⟩
            · intro v hv
              obtain rfl | hv := List.mem_cons.mp hv
              · rfl
              · exact hA v hv
            · intro b hb
              have hnil := hval b hb
              subst hnil hb
              cases hc.unique hX

theorem Fresh.value_of_writeBacks {pre X : List Version} {v : Bytes} {r : Resolved}
    (hpre : ∀ u ∈ pre, u.isUserWrite = false) (h : Fresh (pre ++ .value v :: X) r) :
    r = .value v := by
  induction pre generalizing r with
  | nil => exact h
  | cons u pre ih =>
      have hu := hpre u List.mem_cons_self
      cases u with
      | value b => simp [Version.isUserWrite] at hu
      | plain p => simp [Version.isUserWrite] at hu
      | writeBack n o =>
          obtain ⟨-, c, hc, -⟩ := h
          cases ih (fun w hw => hpre w (List.mem_cons_of_mem _ hw)) hc

theorem Fresh.no_value {vs B : List Version} {c : BlobIndexType}
    (h : Fresh (vs ++ B) (.pointer c)) (hp : ¬PlainAboveValue vs) :
    ∀ w ∈ vs, w.isValue = false := by
  by_contra hc
  have hany : vs.any Version.isValue := by
    rw [List.any_eq_true]
    simpa using hc
  obtain ⟨v, post, hsplit⟩ := exists_newest_value hany
  have hpre : ∀ u ∈ vs.takeWhile fun v => !v.isValue, u.isUserWrite = false := by
    intro u hu
    have hv : u.isValue = false := by simpa using List.mem_takeWhile_imp hu
    cases u with
    | value b => simp [Version.isValue] at hv
    | plain p => exact absurd ⟨hany, List.any_eq_true.mpr ⟨_, hu, rfl⟩⟩ hp
    | writeBack n o => rfl
  rw [hsplit, List.append_assoc, List.cons_append] at h
  cases h.value_of_writeBacks hpre

/-- Resolving the front of a chain keeps the chain. -/
theorem Fresh.resolve {seg B : List Version} {r : Resolved} (h : Fresh (seg ++ B) r)
    (hne : seg ≠ []) (hp : ¬PlainAboveValue seg) :
    ∃ s, resolve seg = some s ∧ Fresh (s :: B) r := by
  match seg, hne with
  | .value v :: t, _ => exact ⟨.value v, by rw [AegonKV.resolve, foldl_combine_value], h⟩
  | .plain p :: t, _ =>
      obtain rfl : .pointer p = r := h.symm
      have hchain : Fresh ((.plain p :: t) ++ B) (.pointer p) := rfl
      have hnv := hchain.no_value hp
      exact ⟨.plain p, resolve_plain fun u hu => hnv u (List.mem_cons_of_mem _ hu), rfl⟩
  | [.writeBack n o], _ => exact ⟨.writeBack n o, rfl, h⟩
  | .writeBack n o :: u :: t, _ =>
      obtain ⟨rfl, c, hc, ho⟩ := h
      have hpt : ¬PlainAboveValue (u :: t) := by
        intro hpa
        apply hp
        simpa [PlainAboveValue, Version.isValue, Version.isPlain] using hpa
      have hnv := hc.no_value hpt
      have hu : u.newPart = some c := by
        have htarget : u.target = .pointer c := by simpa using hc.head
        cases u <;> simp_all [Version.target, Version.newPart]
      refine ⟨.plain n, ?_, rfl⟩
      rw [resolve_writeBack_cons hnv hu, if_pos ho]

/-! ## Lookups -/

theorem getFromTable_value (vs : List Version) :
    (getFromTable {} vs).value = if staleOverValue vs then vs[1]? else vs.head? := by
  match vs with
  | [] => rfl
  | .value v :: _ => rfl
  | .plain p :: _ => rfl
  | [.writeBack n o] => rfl
  | .writeBack n o :: .value v :: _ => rfl
  | .writeBack n o :: .plain p :: _ => rfl
  | .writeBack n o :: .writeBack c d :: _ => rfl

variable {s s' : State κ}

theorem lookup_eq_head {k : κ} (h : staleOverValue (s.mem k) = false) :
    s.lookup k = (s.versions k).head? := by
  simp [State.lookup, State.versions, getFromTable_value, h, List.head?_append, List.head?_flatMap,
    Option.or_assoc]

def Denotes (files : BlobFiles κ) : Resolved → Bytes → Prop
  | .value b, v => b = v
  | .pointer p, v => ∃ r, files.read p = some r ∧ r.value = v

/-- The chain leads to `v`, or a stale write-back lies on top of it in the mutable memtable. -/
def KeyInv (s : State κ) (k : κ) (v : Bytes) : Prop :=
  (∃ r, Fresh (s.versions k) r ∧ Denotes s.files r v) ∨
    ∃ n o older, s.mem k = .writeBack n o :: .value v :: older

theorem Fresh.not_staleOverValue {k : κ} {r : Resolved} (h : Fresh (s.versions k) r) :
    staleOverValue (s.mem k) = false := by
  unfold staleOverValue
  split
  · rename_i n o v older hmem
    simp only [State.versions, hmem, List.cons_append] at h
    obtain ⟨-, c, hc, -⟩ := h
    cases show Resolved.pointer c = .value v from hc
  · rfl

theorem KeyInv.get {k : κ} {v : Bytes} (h : KeyInv s k v) : s.get k = some v := by
  obtain ⟨r, hfresh, hden⟩ | ⟨n, o, older, hmem⟩ := h
  · have hlook := lookup_eq_head hfresh.not_staleOverValue
    have hhead := hfresh.head
    cases hv : (s.versions k).head? with
    | none => simp [hv] at hhead
    | some u =>
        obtain rfl : u.target = r := by simpa [hv] using hhead
        cases ht : u.target with
        | value b => simp_all [State.get, Denotes]
        | pointer p =>
            rw [ht] at hden
            obtain ⟨rec, hrec, hval⟩ := hden
            simp [State.get, hlook, hv, ht, hrec, hval]
  · simp [State.get, State.lookup, getFromTable_value, hmem, staleOverValue, Version.target]

/-! ## The invariant -/

/-- Every record that could be read still can. -/
def FilesLe (files files' : BlobFiles κ) : Prop :=
  ∀ p r, files.read p = some r → files'.read p = some r

theorem FilesLe.of_read_eq {files files' : BlobFiles κ}
    (h : ∀ p, files'.read p = files.read p) : FilesLe files files' := by
  intro p r hr
  rw [h, hr]

/-- A queued rewrite points at a copy of the record it replaces, readable once installed. -/
structure JobInv (files : BlobFiles κ) (job : Job κ) : Prop where
  copied : ∀ w ∈ job.rewriteBatches, ∃ r ∈ job.output.records,
    w.new = pointerTo job.outputNumber r ∧ ∃ r', files.read w.old = some r' ∧ r'.value = r.value
  readable : job.installed → ∀ w ∈ job.rewriteBatches, ∃ r r', files.read w.new = some r ∧
    files.read w.old = some r' ∧ r.value = r'.value

structure Inv (s : State κ) : Prop where
  keys : ∀ k v, s.lastPut k = some v → KeyInv s k v
  mem_plain : ∀ k, ∀ v ∈ s.mem k, v.isPlain = false
  imm_plain : ∀ k, ∀ t ∈ s.imm, ∀ v ∈ t k, v.isPlain = false
  jobs : ∀ job ∈ s.jobs, JobInv s.files job

theorem Denotes.mono {files files' : BlobFiles κ} (hle : FilesLe files files') {r : Resolved}
    {v : Bytes} (h : Denotes files r v) : Denotes files' r v := by
  cases r with
  | value b => exact h
  | pointer p =>
      obtain ⟨rec, hrec, hval⟩ := h
      exact ⟨rec, hle p rec hrec, hval⟩

theorem KeyInv.mono {k : κ} {v : Bytes} (h : KeyInv s k v) (hmem : s'.mem k = s.mem k)
    (hver : s'.versions k = s.versions k) (hle : FilesLe s.files s'.files) : KeyInv s' k v := by
  obtain ⟨r, hfresh, hden⟩ | hstale := h
  · exact Or.inl ⟨r, hver ▸ hfresh, hden.mono hle⟩
  · exact Or.inr (hmem ▸ hstale)

theorem JobInv.mono {files files' : BlobFiles κ} (hle : FilesLe files files') {job : Job κ}
    (h : JobInv files job) : JobInv files' job := by
  constructor
  · intro w hw
    obtain ⟨r, hr, hnew, r', hr', hval⟩ := h.copied w hw
    exact ⟨r, hr, hnew, r', hle _ _ hr', hval⟩
  · intro hi w hw
    obtain ⟨r, r', hr, hr', hval⟩ := h.readable hi w hw
    exact ⟨r, r', hle _ _ hr, hle _ _ hr', hval⟩

/-- Steps that leave the LSM tree and the jobs alone. -/
theorem Inv.files_step (h : Inv s) {files : BlobFiles κ} (hle : FilesLe s.files files) :
    Inv { s with files := files } :=
  ⟨fun k v hv => (h.keys k v hv).mono rfl rfl hle, h.mem_plain, h.imm_plain,
    fun job hj => (h.jobs job hj).mono hle⟩

theorem Inv.init : Inv (State.init : State κ) :=
  ⟨by simp [State.init], by simp [State.init], by simp [State.init], by simp [State.init]⟩

/-! ## Memtable switches and user writes -/

theorem Inv.switchMemtable (h : Inv s) (hb : ∀ k, staleOverValue (s.mem k) = false) :
    Inv { s with mem := fun _ => [], imm := s.mem :: s.imm } := by
  refine ⟨?_, by simp, ?_, h.jobs⟩
  · intro k v hv
    obtain ⟨r, hfresh, hden⟩ | ⟨n, o, older, hmem⟩ := h.keys k v hv
    · refine Or.inl ⟨r, ?_, hden⟩
      simpa [State.versions] using hfresh
    · have := hb k
      simp [hmem, staleOverValue] at this
  · intro k t ht u hu
    obtain rfl | ht := List.mem_cons.mp ht
    · exact h.mem_plain k u hu
    · exact h.imm_plain k t ht u hu

variable [DecidableEq κ]

theorem versions_pushMem_self (s : State κ) (k : κ) (v : Version) :
    (s.pushMem k v).versions k = v :: s.versions k := by
  simp [State.versions, State.pushMem]

theorem versions_pushMem_other (s : State κ) {k k' : κ} (h : k' ≠ k) (v : Version) :
    (s.pushMem k v).versions k' = s.versions k' := by
  simp [State.versions, State.pushMem, h]

theorem mem_plain_pushMem (h : ∀ k, ∀ v ∈ s.mem k, v.isPlain = false) {k : κ} {v : Version}
    (hv : v.isPlain = false) : ∀ k', ∀ u ∈ (s.pushMem k v).mem k', u.isPlain = false := by
  intro k' u hu
  by_cases hk : k' = k
  · subst hk
    obtain rfl | hu := List.mem_cons.mp (by simpa [State.pushMem] using hu)
    · exact hv
    · exact h _ u hu
  · exact h k' u (by simpa [State.pushMem, hk] using hu)

theorem Inv.put (h : Inv s) (k : κ) (v : Bytes) :
    Inv { s.pushMem k (.value v) with lastPut := Function.update s.lastPut k (some v) } := by
  refine ⟨?_, mem_plain_pushMem h.mem_plain rfl, h.imm_plain, h.jobs⟩
  intro k' v' hv'
  by_cases hk : k' = k
  · subst hk
    obtain rfl : v = v' := by simpa using hv'
    refine Or.inl ⟨.value v, ?_, rfl⟩
    change Fresh ((s.pushMem k' (.value v)).versions k') _
    rw [versions_pushMem_self]
    rfl
  · refine (h.keys k' v' (by simpa [hk] using hv')).mono ?_ ?_ fun _ _ hr => hr
    · exact Function.update_of_ne hk _ _
    · exact versions_pushMem_other s hk _

end AegonKV.OffloadedGC

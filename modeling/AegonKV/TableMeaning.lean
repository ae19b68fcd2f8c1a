import AegonKV.TableBuilder
import Mathlib.Data.List.Forall2

/-!
# A table keeps its meaning

Entries reach the base builder directly or through the contexts of a blob file builder. While that
builder holds records back, every entry goes through it, so that the base builder gets all entries in
their order. What a new blob index finds is known when its file is finished.
-/

namespace AegonKV.TableBuilder
open LittleEndian AegonKV InternalKey BlobFileBuilder

def Config.Denotes (c : Config) (type : InternalKey.ValueType) (value v : Bytes) : Prop :=
  (type = .kTypeValue ∧ v = value) ∨
  (type = .kTypeBlobIndex ∧ ∃ index rest record, BlobIndex.decodeFrom value = .ok (index, rest) ∧
    c.getBlobRecord index.fileNumber index.blobHandle = .ok record ∧ v = record.value)

/-- An entry of the table for a call: the same user key and sequence, and the same value, in one of
its forms. An index is read from the old files, or it finds a record that `finds` knows. -/
def Config.PassedBy (c : Config) (finds : BlobIndex → BlobRecord → Prop) (call : AddCall)
    (entry : Bytes × Bytes) : Prop :=
  ∃ ikey out : ParsedInternalKey, parseInternalKey call.key = .ok ikey ∧
    parseInternalKey entry.1 = .ok out ∧ out.userKey = ikey.userKey ∧ out.sequence = ikey.sequence ∧
    (ikey.type ≠ .kTypeValue → ikey.type ≠ .kTypeBlobIndex → entry = (call.key, call.value)) ∧
    ∀ v, c.Denotes ikey.type call.value v →
      (out.type = .kTypeValue ∧ entry.2 = v) ∨
      (out.type = .kTypeBlobIndex ∧ ∃ index rest, BlobIndex.decodeFrom entry.2 = .ok (index, rest) ∧
        ((∃ record, c.getBlobRecord index.fileNumber index.blobHandle = .ok record ∧
          record.value = v) ∨ finds index ⟨ikey.userKey, v⟩))

def Config.ReadsBack (c : Config) (files : List (UInt64 × Bytes)) (index : BlobIndex)
    (record : BlobRecord) : Prop :=
  ∃ file, (index.fileNumber, file) ∈ files ∧ ∀ blobCache, ∃ reader,
    CachedReader.openFile file blobCache = .ok reader ∧
      (reader.get c.options.codec.uncompress index.blobHandle).1 = .ok record

/-- The sizes of a record stay below the limits of the format. -/
def Config.Storable (c : Config) (record : BlobRecord) : Prop :=
  record.key.length < 2 ^ 32 ∧ record.value.length < 2 ^ 32 ∧
    ∀ dict, (c.options.codec.compress dict record.encodeTo).1.length < 2 ^ 32

/-- A call with an internal key. The value of a blob index can be read, and a value can be stored. -/
def Config.Valid (c : Config) (call : AddCall) : Prop :=
  ∃ ikey, parseInternalKey call.key = .ok ikey ∧
    (ikey.type = .kTypeBlobIndex → ∃ v, c.Denotes ikey.type call.value v) ∧
    ∀ v, c.Denotes ikey.type call.value v → c.Storable ⟨ikey.userKey, v⟩

variable {c : Config} {finds finds' : BlobIndex → BlobRecord → Prop} {call : AddCall}
  {ikey : ParsedInternalKey}

theorem Config.Denotes.unique {type : InternalKey.ValueType} {value v w : Bytes}
    (hv : c.Denotes type value v) (hw : c.Denotes type value w) : v = w := by
  rcases hv with ⟨rfl, rfl⟩ | ⟨rfl, index, rest, record, hdecode, hread, rfl⟩
  · rcases hw with ⟨-, rfl⟩ | ⟨htype, -⟩
    · rfl
    · cases htype
  · rcases hw with ⟨htype, -⟩ | ⟨-, index', rest', record', hdecode', hread', rfl⟩
    · cases htype
    · obtain ⟨rfl, -⟩ := Prod.mk.inj (Except.ok.inj (hdecode.symm.trans hdecode'))
      rw [Except.ok.inj (hread.symm.trans hread')]

theorem Config.PassedBy.mono {entry : Bytes × Bytes} (h : c.PassedBy finds call entry)
    (hle : ∀ index record, finds index record → finds' index record) :
    c.PassedBy finds' call entry := by
  obtain ⟨ikey, out, hkey, hout, huser, hseq, hother, hvalue⟩ := h
  refine ⟨ikey, out, hkey, hout, huser, hseq, hother, fun v hv => ?_⟩
  rcases hvalue v hv with hinline | ⟨htype, index, rest, hdecode, hold | hnew⟩
  · exact Or.inl hinline
  · exact Or.inr ⟨htype, index, rest, hdecode, Or.inl hold⟩
  · exact Or.inr ⟨htype, index, rest, hdecode, Or.inr (hle _ _ hnew)⟩

/-- An entry that is passed on as it is. -/
theorem passedBy_same (hkey : parseInternalKey call.key = .ok ikey) :
    c.PassedBy finds call (call.key, call.value) := by
  refine ⟨ikey, ikey, hkey, hkey, rfl, rfl, fun _ _ => rfl, ?_⟩
  rintro v (⟨htype, rfl⟩ | ⟨htype, index, rest, record, hdecode, hread, rfl⟩)
  · exact Or.inl ⟨htype, rfl⟩
  · exact Or.inr ⟨htype, index, rest, hdecode, Or.inl ⟨record, hread, rfl⟩⟩

/-- A value that is passed on inline. -/
theorem passedBy_inline (hkey : parseInternalKey call.key = .ok ikey) {v : Bytes}
    (hv : c.Denotes ikey.type call.value v) :
    c.PassedBy finds call (appendInternalKey { ikey with type := .kTypeValue }, v) := by
  have hseq := (appendInternalKey_of_parse hkey).2
  refine ⟨ikey, { ikey with type := .kTypeValue }, hkey,
    parseInternalKey_appendInternalKey hseq, rfl, rfl, ?_, ?_⟩
  · intro hvalue hindex
    rcases hv with ⟨htype, -⟩ | ⟨htype, -⟩
    · exact absurd htype hvalue
    · exact absurd htype hindex
  · intro w hw
    exact Or.inl ⟨rfl, hv.unique hw⟩

/-- A value that is passed on as an index. -/
theorem passedBy_index (hkey : parseInternalKey call.key = .ok ikey) {v : Bytes}
    (hv : c.Denotes ikey.type call.value v) {index : BlobIndex} (hold : index.oldFileNumber = 0)
    (hfinds : finds { fileNumber := index.fileNumber, blobHandle := index.blobHandle }
      ⟨ikey.userKey, v⟩) :
    c.PassedBy finds call
      (appendInternalKey { ikey with type := .kTypeBlobIndex }, index.encodeTo) := by
  have hseq := (appendInternalKey_of_parse hkey).2
  have hencode : index.encodeTo =
      BlobIndex.encodeTo { fileNumber := index.fileNumber, blobHandle := index.blobHandle } := by
    rw [BlobIndex.encodeTo, BlobIndex.encodeTo, hold]
    rfl
  refine ⟨ikey, { ikey with type := .kTypeBlobIndex }, hkey,
    parseInternalKey_appendInternalKey hseq, rfl, rfl, ?_, ?_⟩
  · intro hvalue hindex
    rcases hv with ⟨htype, -⟩ | ⟨htype, -⟩
    · exact absurd htype hvalue
    · exact absurd htype hindex
  · intro w hw
    obtain rfl := hv.unique hw
    refine Or.inr ⟨rfl, { fileNumber := index.fileNumber, blobHandle := index.blobHandle }, [], ?_,
      Or.inr hfinds⟩
    rw [hencode]
    exact BlobIndex.decodeFrom_encodeTo_of_plain _ _

/-! ## Contexts -/

/-- A context for a call, from which its entry can be made. -/
def Config.Ready (c : Config) (finds : BlobIndex → BlobRecord → Prop) (call : AddCall)
    (ctx : BlobRecordContext) : Prop :=
  ∃ ikey, parseInternalKey call.key = .ok ikey ∧ ctx.key = call.key ∧
    ((ctx.hasValue = true ∧ ctx.value = call.value) ∨
      (ctx.hasValue = false ∧ ctx.newBlobIndex.oldFileNumber = 0 ∧
        ∃ v, c.Denotes ikey.type call.value v ∧
          finds { fileNumber := ctx.newBlobIndex.fileNumber
                  blobHandle := ctx.newBlobIndex.blobHandle } ⟨ikey.userKey, v⟩))

theorem Config.Ready.mono {ctx : BlobRecordContext} (h : c.Ready finds call ctx)
    (hle : ∀ index record, finds index record → finds' index record) : c.Ready finds' call ctx := by
  obtain ⟨ikey, hkey, hctx, hinline | ⟨hno, hold, v, hv, hfinds⟩⟩ := h
  · exact ⟨ikey, hkey, hctx, Or.inl hinline⟩
  · exact ⟨ikey, hkey, hctx, Or.inr ⟨hno, hold, v, hv, hle _ _ hfinds⟩⟩

/-- The contexts become entries in their order. -/
theorem addBlobResultsToBase_spec {t : State} (hstatus : t.status = .ok) {calls : List AddCall}
    {contexts : List BlobRecordContext} (h : List.Forall₂ (c.Ready finds) calls contexts) :
    ∃ entries, t.addBlobResultsToBase contexts = { t with base := t.base ++ entries } ∧
      List.Forall₂ (c.PassedBy finds) calls entries := by
  induction h generalizing t with
  | nil => exact ⟨[], by rw [List.append_nil]; rfl, .nil⟩
  | @cons call ctx calls contexts hready _ ih =>
      obtain ⟨ikey, hkey, hctx, hcase⟩ := hready
      have hparse : parseInternalKey ctx.key = .ok ikey := by rw [hctx, hkey]
      have hsame : { t with status := .ok } = t := by rw [← hstatus]
      rw [State.addBlobResultsToBase, hparse]
      dsimp only
      rw [hsame]
      rcases hcase with ⟨hhas, hvalue⟩ | ⟨hno, hold, v, hv, hfinds⟩
      · obtain ⟨entries, heq, hentries⟩ :=
          ih (t := t.addBaseEntry ctx.key ctx.value) hstatus
        refine ⟨(call.key, call.value) :: entries, ?_, .cons (passedBy_same hkey) hentries⟩
        rw [if_pos hhas, heq, State.addBaseEntry, hctx, hvalue, List.append_assoc]
        rfl
      · obtain ⟨entries, heq, hentries⟩ :=
          ih (t := t.addBaseEntry (appendInternalKey { ikey with type := .kTypeBlobIndex })
            ctx.newBlobIndex.encodeTo) hstatus
        refine ⟨(appendInternalKey { ikey with type := .kTypeBlobIndex },
          ctx.newBlobIndex.encodeTo) :: entries, ?_, .cons (passedBy_index hkey hv hold hfinds) hentries⟩
        rw [if_neg (by rw [hno]; exact Bool.false_ne_true), heq, State.addBaseEntry, List.append_assoc]
        rfl

/-- The call of a blob file builder that stands for a call of `Add`. -/
def Config.Holds (c : Config) (number : UInt64) (call : AddCall) (held : BuilderCall) : Prop :=
  ∃ ikey, parseInternalKey call.key = .ok ikey ∧
    match held with
    | .addSmall ctx => ctx = { key := call.key, hasValue := true, value := call.value }
    | .add record ctx =>
      ctx = { key := call.key, newBlobIndex := ⟨number, default, 0, default⟩ } ∧
        record.key = ikey.userKey ∧ c.Denotes ikey.type call.value record.value

/-- What a builder holds for the calls is ready when the contexts come back. -/
theorem forall₂_ready {number : UInt64} {calls : List AddCall} {held : List BuilderCall}
    {contexts : List BlobRecordContext} (hholds : List.Forall₂ (c.Holds number) calls held)
    (hreturns : List.Forall₂ BuilderCall.Returns held contexts)
    (hfinds : ∀ record handle, (record, handle) ∈ blobItems held contexts →
      finds { fileNumber := number, blobHandle := handle } record) :
    List.Forall₂ (c.Ready finds) calls contexts := by
  induction hholds generalizing contexts with
  | nil =>
      cases hreturns
      exact .nil
  | @cons call first calls held hhold _ ih =>
      obtain ⟨ctx, contexts, hreturn, hrest, rfl⟩ := List.forall₂_cons_left_iff.mp hreturns
      obtain ⟨ikey, hkey, hcase⟩ := hhold
      cases first with
      | addSmall held' =>
          have hctx : ctx = held' := hreturn
          have hheld : held' = { key := call.key, hasValue := true, value := call.value } := hcase
          refine .cons ⟨ikey, hkey, ?_⟩ (ih hrest hfinds)
          rw [hctx, hheld]
          exact ⟨rfl, Or.inl ⟨rfl, rfl⟩⟩
      | add record held' =>
          obtain ⟨handle, hctx⟩ := hreturn
          obtain ⟨hheld, hrecord, hv⟩ := hcase
          subst hheld
          have hitem : finds { fileNumber := number, blobHandle := handle }
              ⟨ikey.userKey, record.value⟩ := by
            rw [← hrecord]
            refine hfinds record handle ?_
            rw [hctx]
            exact List.mem_cons_self
          refine .cons ⟨ikey, hkey, ?_⟩ (ih hrest fun r h hmem => hfinds r h ?_)
          · rw [hctx]
            exact ⟨rfl, Or.inr ⟨rfl, rfl, record.value, hv, hitem⟩⟩
          · exact List.mem_cons_of_mem _ hmem

/-! ## Blob files -/

/-- The builder of a blob file after these calls, with the contexts it has handed out. -/
def Config.after (c : Config) (held : List BuilderCall) : BlobFileBuilder × List BlobRecordContext :=
  afterCalls c.options BlobFileHeader.kVersion2 held

def Config.fileOf (c : Config) (held : List BuilderCall) : BlobFileBuilder × List BlobRecordContext :=
  buildFile c.options BlobFileHeader.kVersion2 held

structure Config.Sound (c : Config) (held : List BuilderCall) : Prop where
  tagged : ∀ call ∈ held, call.Tagged
  small : SmallWhileBuffered c.options BlobFileHeader.kVersion2 held
  storable : ∀ record ∈ BuilderCall.records held, c.Storable record

variable {held : List BuilderCall}

theorem sound_nil : c.Sound [] :=
  ⟨nofun, fun pre ctx post hsplit => (by simp at hsplit), nofun⟩

/-- The buffered builder lets inline entries in between. -/
theorem smallWhileBuffered_append {o : BuilderOptions} {version : UInt32} {call : BuilderCall}
    (h : SmallWhileBuffered o version held)
    (hstate : call.record? = none → (afterCalls o version held).1.builderState = .kBuffered) :
    SmallWhileBuffered o version (held ++ [call]) := by
  intro pre ctx post hsplit
  rcases List.eq_nil_or_concat post with rfl | ⟨post, last, rfl⟩
  · obtain ⟨rfl, hcall⟩ := List.append_inj' hsplit rfl
    obtain rfl := (List.cons.inj hcall).1
    exact hstate rfl
  · have hsplit' : held ++ [call] = pre ++ .addSmall ctx :: post ++ [last] := by
      rw [hsplit, List.concat_eq_append, List.append_assoc, List.cons_append]
    exact h pre ctx post (List.append_inj' hsplit' rfl).1

theorem Config.Sound.append (h : c.Sound held) {call : BuilderCall} (htag : call.Tagged)
    (hstate : call.record? = none → (c.after held).1.builderState = .kBuffered)
    (hrecord : ∀ record ∈ call.record?, c.Storable record) : c.Sound (held ++ [call]) := by
  refine ⟨?_, smallWhileBuffered_append h.small hstate, ?_⟩
  · intro other hmem
    rcases List.mem_append.mp hmem with hmem | hmem
    · exact h.tagged other hmem
    · rw [List.mem_singleton.mp hmem]
      exact htag
  · intro record hmem
    rw [BuilderCall.records_append] at hmem
    rcases List.mem_append.mp hmem with hmem | hmem
    · exact h.storable record hmem
    · obtain ⟨other, hother, hsome⟩ := List.mem_filterMap.mp hmem
      obtain rfl := List.mem_singleton.mp hother
      exact hrecord record hsome

theorem Config.Sound.holding (h : c.Sound held) :
    Held c.options BlobFileHeader.kVersion2 held (c.after held) :=
  held_afterCalls (Or.inl rfl) h.tagged h.small

theorem Config.Sound.returns (h : c.Sound held) :
    List.Forall₂ BuilderCall.Returns held (c.fileOf held).2 := by
  obtain ⟨-, -, hplaced, -⟩ := buildFile_held (Or.inl rfl) h.tagged h.small
  rw [Config.fileOf, hplaced]
  exact BuilderCall.forall₂_returns _ _ _ _

/-- A builder holds everything back or has handed everything out. -/
theorem Config.Sound.cases (h : c.Sound held) :
    ((c.after held).1.builderState = .kBuffered ∧ (c.after held).2 = [] ∧
      (c.after held).1.finish.2.1 = (c.fileOf held).2) ∨
    ((c.after held).1.builderState = .kUnbuffered ∧ (c.after held).2 = (c.fileOf held).2 ∧
      (c.after held).1.finish.2.1 = []) := by
  have hall : (c.fileOf held).2 = (c.after held).2 ++ (c.after held).1.finish.2.1 := rfl
  rcases h.holding with hwait | ⟨dict, hwritten⟩
  · refine Or.inl ⟨hwait.state, hwait.out, ?_⟩
    rw [hall, hwait.out, List.nil_append]
  · refine Or.inr ⟨hwritten.state, ?_, by rw [hwritten.finish]⟩
    rw [hall, hwritten.finish, List.append_nil]

def Config.Finds (c : Config) (finished : List (UInt64 × List BuilderCall))
    (current : Option (UInt64 × List BuilderCall)) (index : BlobIndex) (record : BlobRecord) : Prop :=
  (∃ file ∈ finished, index.fileNumber = file.1 ∧
    (record, index.blobHandle) ∈ blobItems file.2 (c.fileOf file.2).2) ∨
  (∃ file ∈ current, index.fileNumber = file.1 ∧
    (record, index.blobHandle) ∈ blobItems file.2 (c.after file.2).2)

def Config.Waits (c : Config) (current : Option (UInt64 × List BuilderCall)) (pending : List AddCall) :
    Prop :=
  match current with
  | none => pending = []
  | some file =>
    if (c.after file.2).1.builderState = .kBuffered then
      List.Forall₂ (c.Holds file.1) pending file.2
    else pending = []

/-- The state after the calls `done`, which the base builder has, and `pending`, which wait. -/
structure Inv (c : Config) (finished : List (UInt64 × List BuilderCall))
    (current : Option (UInt64 × List BuilderCall)) (done pending : List AddCall) (t : State) :
    Prop where
  status : t.status = .ok
  finishedBlobs : t.finishedBlobs = finished.map fun file => (file.1, (c.fileOf file.2).1.file)
  finishedSound : ∀ file ∈ finished, c.Sound file.2
  blob : t.blob = current.map fun file => (file.1, (c.after file.2).1)
  currentSound : ∀ file ∈ current, c.Sound file.2
  fallback : c.blobRunMode = .kFallback → current = none
  base : List.Forall₂ (c.PassedBy (c.Finds finished current)) done t.base
  waits : c.Waits current pending

variable {finished : List (UInt64 × List BuilderCall)}
  {current : Option (UInt64 × List BuilderCall)} {done pending owed : List AddCall} {t : State}

theorem Config.Sound.finish_ok (h : c.Sound held) :
    (c.after held).1.finish.2.2 = .ok ∧ (c.after held).1.finish.1.status = .ok := by
  rcases h.holding with hwait | ⟨dict, hwritten⟩
  · obtain ⟨dict, hwritten⟩ := hwait.enterUnbuffered (Or.inl rfl) h.tagged
    rw [hwait.finish hwritten]
    exact ⟨rfl, hwritten.status⟩
  · rw [hwritten.finish]
    exact ⟨rfl, hwritten.status⟩

theorem blobItems_nil (held : List BuilderCall) : blobItems held [] = [] := by
  rw [blobItems, List.zip_nil_right]
  rfl

theorem blobItems_append {held held' : List BuilderCall} {contexts contexts' : List BlobRecordContext}
    (hlen : held.length = contexts.length) :
    blobItems (held ++ held') (contexts ++ contexts') =
      blobItems held contexts ++ blobItems held' contexts' := by
  rw [blobItems, List.zip_append hlen, List.filterMap_append]
  rfl

/-- Contexts that come back are passed on. -/
theorem Inv.addResults (h : Inv c finished current done [] t) {contexts : List BlobRecordContext}
    (hready : List.Forall₂ (c.Ready (c.Finds finished current)) owed contexts) :
    Inv c finished current (done ++ owed) [] (t.addBlobResultsToBase contexts) := by
  obtain ⟨entries, heq, hentries⟩ := addBlobResultsToBase_spec h.status hready
  rw [heq]
  exact ⟨h.status, h.finishedBlobs, h.finishedSound, h.blob, h.currentSound, h.fallback,
    List.rel_append h.base hentries, h.waits⟩

/-- What the current file finds it finds as a finished file. -/
theorem Config.Finds.finish {number : UInt64} {held : List BuilderCall} (hsound : c.Sound held)
    {index : BlobIndex} {record : BlobRecord}
    (h : c.Finds finished (some (number, held)) index record) :
    c.Finds (finished ++ [(number, held)]) none index record := by
  rcases h with ⟨file, hfile, hfinds⟩ | ⟨file, hfile, hnumber, hitem⟩
  · exact Or.inl ⟨file, List.mem_append_left _ hfile, hfinds⟩
  · obtain rfl := Option.some.inj hfile
    refine Or.inl ⟨(number, held), List.mem_append_right _ (List.mem_singleton.mpr rfl), hnumber, ?_⟩
    rcases hsound.cases with ⟨-, hout, -⟩ | ⟨-, hout, -⟩
    · rw [hout, blobItems_nil] at hitem
      cases hitem
    · rw [← hout]
      exact hitem

/-- The contexts of a finished file are ready for the calls that wait. -/
theorem Inv.ready {number : UInt64} {held : List BuilderCall}
    (h : Inv c finished (some (number, held)) done pending t) :
    List.Forall₂ (c.Ready (c.Finds (finished ++ [(number, held)]) none)) pending
      (c.after held).1.finish.2.1 := by
  have hsound : c.Sound held := h.currentSound _ rfl
  have hwaits : if (c.after held).1.builderState = .kBuffered then
      List.Forall₂ (c.Holds number) pending held else pending = [] := h.waits
  rcases hsound.cases with ⟨hstate, -, hcontexts⟩ | ⟨hstate, -, hcontexts⟩
  · rw [if_pos hstate] at hwaits
    rw [hcontexts]
    refine forall₂_ready hwaits hsound.returns fun record handle hitem => ?_
    exact Or.inl ⟨(number, held), List.mem_append_right _ (List.mem_singleton.mpr rfl), rfl, hitem⟩
  · rw [if_neg (by rw [hstate]; decide)] at hwaits
    rw [hwaits, hcontexts]
    exact .nil

/-- The file at hand is finished, and everything that waits is passed on. -/
theorem Inv.finishBlobFile (h : Inv c finished current done pending t) :
    ∃ finished', Inv c finished' none (done ++ pending) [] t.finishBlobFile ∧
      ∀ index record, c.Finds finished current index record → c.Finds finished' none index record := by
  cases current with
  | none =>
      have hpending : pending = [] := h.waits
      have hblob : t.blob = none := h.blob
      refine ⟨finished, ?_, fun _ _ hfinds => hfinds⟩
      rw [State.finishBlobFile, hblob, hpending, List.append_nil]
      exact hpending ▸ h
  | some file =>
      obtain ⟨number, held⟩ := file
      have hsound : c.Sound held := h.currentSound _ rfl
      have hblob : t.blob = some (number, (c.after held).1) := h.blob
      obtain ⟨hs, hstatus⟩ := hsound.finish_ok
      have hmono : ∀ index record, c.Finds finished (some (number, held)) index record →
          c.Finds (finished ++ [(number, held)]) none index record :=
        fun _ _ hfinds => hfinds.finish hsound
      obtain ⟨entries, heq, hentries⟩ := addBlobResultsToBase_spec
        (t := { t with blob := some (number, (c.after held).1.finish.1) }) h.status h.ready
      refine ⟨finished ++ [(number, held)], ?_, hmono⟩
      have hok : State.ok { t with
          blob := some (number, (c.after held).1.finish.1)
          base := t.base ++ entries } = true := by
        simp [State.ok, h.status, hstatus]
      rw [State.finishBlobFile, hblob]
      dsimp only
      rw [heq, hs, hok]
      refine ⟨h.status, ?_, ?_, rfl, fun _ hx => (by cases hx), fun _ => rfl, ?_, rfl⟩
      · rw [List.map_append, ← h.finishedBlobs]
        rfl
      · intro file hmem
        rcases List.mem_append.mp hmem with hmem | hmem
        · exact h.finishedSound file hmem
        · rw [List.mem_singleton.mp hmem]
          exact hsound
      · exact List.rel_append (h.base.imp fun _ _ hpassed => hpassed.mono hmono) hentries

/-! ## One call -/

def Config.nextFile (c : Config) (finished : List (UInt64 × List BuilderCall))
    (current : Option (UInt64 × List BuilderCall)) : UInt64 × List BuilderCall :=
  current.getD (c.newFile finished.length, [])

theorem Inv.currentBlob (h : Inv c finished current done pending t) :
    c.currentBlob t = ((c.nextFile finished current).1,
      (c.after (c.nextFile finished current).2).1) := by
  rw [Config.currentBlob, h.blob, h.finishedBlobs, List.length_map]
  cases current with
  | none => rfl
  | some file => rfl

theorem Inv.nextSound (h : Inv c finished current done pending t) :
    c.Sound (c.nextFile finished current).2 := by
  cases current with
  | none => exact sound_nil
  | some file => exact h.currentSound file rfl

theorem Inv.nextWaits (h : Inv c finished current done pending t) :
    c.Waits (some (c.nextFile finished current)) pending := by
  cases current with
  | none =>
      have hpending : pending = [] := h.waits
      rw [hpending, Config.Waits]
      split_ifs
      · exact .nil
      · rfl
  | some file => exact h.waits

theorem finds_nextFile (index : BlobIndex) (record : BlobRecord)
    (h : c.Finds finished current index record) :
    c.Finds finished (some (c.nextFile finished current)) index record := by
  rcases h with hold | ⟨file, hfile, hfinds⟩
  · exact Or.inl hold
  · obtain rfl := hfile
    exact Or.inr ⟨file, rfl, hfinds⟩

section

variable {number : UInt64} {record : BlobRecord} {ctx : BlobRecordContext}

theorem after_append_add (c : Config) (held : List BuilderCall) (record : BlobRecord)
    (ctx : BlobRecordContext) :
    c.after (held ++ [.add record ctx]) = (((c.after held).1.add record ctx).1,
      (c.after held).2 ++ ((c.after held).1.add record ctx).2) := by
  rw [Config.after, afterCalls, List.foldl_append]
  rfl

theorem Config.Sound.append_add (h : c.Sound held) (htag : (BuilderCall.add record ctx).Tagged)
    (hstorable : c.Storable record) : c.Sound (held ++ [.add record ctx]) := by
  refine h.append htag (fun hsmall => (by cases hsmall)) ?_
  intro other hother
  obtain rfl := Option.some.inj hother
  exact hstorable

/-- What the builder has handed out before stays where it is. -/
theorem Config.Sound.finds_append_add (h : c.Sound held) (index : BlobIndex) (found : BlobRecord)
    (hfinds : c.Finds finished (some (number, held)) index found) :
    c.Finds finished (some (number, held ++ [.add record ctx])) index found := by
  obtain hold | ⟨file, hfile, hnumber, hitem⟩ := hfinds
  · exact Or.inl hold
  · obtain rfl := Option.some.inj hfile
    refine Or.inr ⟨_, rfl, hnumber, ?_⟩
    rcases h.cases with ⟨-, hout, -⟩ | ⟨-, hout, -⟩
    · rw [hout, blobItems_nil] at hitem
      cases hitem
    · rw [after_append_add, blobItems_append (hout ▸ h.returns.length_eq)]
      exact List.mem_append_left _ hitem

/-- What waits and what is owed for a record that a builder takes. -/
def Config.Splits (c : Config) (finished : List (UInt64 × List BuilderCall)) (number : UInt64)
    (held : List BuilderCall) (calls : List AddCall) (contexts : List BlobRecordContext)
    (waiting owed : List AddCall) : Prop :=
  waiting ++ owed = calls ∧ (waiting = [] ∨ owed = []) ∧ c.Waits (some (number, held)) waiting ∧
    List.Forall₂ (c.Ready (c.Finds finished (some (number, held)))) owed contexts

variable (hsound : c.Sound held) (hwaits : c.Waits (some (number, held)) pending)
  (hholds : c.Holds number call (.add record ctx))
include hsound hwaits hholds

/-- A buffered builder keeps everything, or it hands everything out. -/
theorem splits_kBuffered (hnew : c.Sound (held ++ [.add record ctx]))
    (hstate : (c.after held).1.builderState = .kBuffered) :
    ∃ waiting owed, c.Splits finished number (held ++ [.add record ctx]) (pending ++ [call])
      ((c.after held).1.add record ctx).2 waiting owed := by
  have hall : List.Forall₂ (c.Holds number) (pending ++ [call]) (held ++ [.add record ctx]) := by
    rw [Config.Waits, if_pos hstate] at hwaits
    exact List.rel_append hwaits (.cons hholds .nil)
  have hout : (c.after held).2 = [] := by
    rcases hsound.cases with ⟨-, hout, -⟩ | ⟨hno, -, -⟩
    · exact hout
    · cases hstate.symm.trans hno
  have hcontexts : (c.after (held ++ [.add record ctx])).2 =
      ((c.after held).1.add record ctx).2 := by
    rw [after_append_add, hout, List.nil_append]
  rw [← hcontexts]
  rcases hnew.cases with ⟨hafter, hnone, -⟩ | ⟨hafter, hsome, -⟩
  · refine ⟨pending ++ [call], [], List.append_nil _, Or.inr rfl, ?_, ?_⟩
    · rw [Config.Waits, if_pos hafter]
      exact hall
    · rw [hnone]
      exact .nil
  · refine ⟨[], pending ++ [call], rfl, Or.inl rfl, ?_, ?_⟩
    · rw [Config.Waits, if_neg (by rw [hafter]; decide)]
    · exact forall₂_ready hall (hsome ▸ hnew.returns) fun _ _ hitem => Or.inr ⟨_, rfl, rfl, hitem⟩

/-- An unbuffered one hands out the context of the record. -/
theorem splits_kUnbuffered (hstate : (c.after held).1.builderState = .kUnbuffered) :
    ∃ waiting owed, c.Splits finished number (held ++ [.add record ctx]) (pending ++ [call])
      ((c.after held).1.add record ctx).2 waiting owed := by
  have hpending : pending = [] := by
    rwa [Config.Waits, if_neg (by rw [hstate]; decide)] at hwaits
  have hadd := add_kUnbuffered hsound.holding.options.2 hstate record ctx
  have hafter : (c.after (held ++ [.add record ctx])).1.builderState = .kUnbuffered := by
    rw [after_append_add, hadd]
    exact hstate
  have hlen : held.length = (c.after held).2.length := by
    rcases hsound.cases with ⟨hno, -, -⟩ | ⟨-, hout, -⟩
    · cases hstate.symm.trans hno
    · exact hout ▸ hsound.returns.length_eq
  subst hpending
  refine ⟨[], [call], rfl, Or.inl rfl, ?_, ?_⟩
  · rw [Config.Waits, if_neg (by rw [hafter]; decide)]
  · refine forall₂_ready (.cons hholds .nil) ?_ fun _ _ hitem => Or.inr ⟨_, rfl, rfl, ?_⟩
    · rw [hadd]
      exact .cons ⟨_, rfl⟩ .nil
    · rw [after_append_add, blobItems_append hlen]
      exact List.mem_append_right _ hitem

end

/-- A value goes into the file at hand. Afterwards everything waits, or everything that waited comes
back. -/
theorem Inv.push (h : Inv c finished current done pending t) (hmode : c.blobRunMode ≠ .kFallback)
    (hkey : parseInternalKey call.key = .ok ikey) {v : Bytes}
    (hv : c.Denotes ikey.type call.value v) (hstorable : c.Storable ⟨ikey.userKey, v⟩)
    {number : UInt64} {b : BlobFileBuilder} (hcurrent : c.currentBlob t = (number, b))
    {ctx : BlobRecordContext}
    (hctx : ctx = { key := appendInternalKey ikey, newBlobIndex := ⟨number, default, 0, default⟩ }) :
    ∃ held waiting owed, waiting ++ owed = pending ++ [call] ∧ (waiting = [] ∨ owed = []) ∧
      Inv c finished (some (number, held)) done waiting
        { t with blob := some (number, (b.add ⟨ikey.userKey, v⟩ ctx).1) } ∧
      List.Forall₂ (c.Ready (c.Finds finished (some (number, held)))) owed
        (b.add ⟨ikey.userKey, v⟩ ctx).2 := by
  rw [(appendInternalKey_of_parse hkey).1] at hctx
  have hsound := h.nextSound
  have hwaits := h.nextWaits
  have hbase : List.Forall₂
      (c.PassedBy (c.Finds finished (some (c.nextFile finished current)))) done t.base :=
    h.base.imp fun _ _ hpassed => hpassed.mono finds_nextFile
  rw [h.currentBlob] at hcurrent
  generalize c.nextFile finished current = file at *
  obtain ⟨number', old⟩ := file
  obtain ⟨rfl, rfl⟩ := Prod.mk.inj hcurrent
  dsimp only at hsound
  have hholds : c.Holds number' call (.add ⟨ikey.userKey, v⟩ ctx) := ⟨ikey, hkey, hctx, rfl, hv⟩
  have hnew : c.Sound (old ++ [.add ⟨ikey.userKey, v⟩ ctx]) := by
    refine hsound.append_add ?_ hstorable
    rw [hctx]
    rfl
  obtain ⟨waiting, owed, hsplit, hone, hwaiting, hready⟩ : ∃ waiting owed,
      c.Splits finished number' (old ++ [.add ⟨ikey.userKey, v⟩ ctx]) (pending ++ [call])
        ((c.after old).1.add ⟨ikey.userKey, v⟩ ctx).2 waiting owed := by
    cases hstate : (c.after old).1.builderState with
    | kBuffered => exact splits_kBuffered hsound hwaits hholds hnew hstate
    | kUnbuffered => exact splits_kUnbuffered hsound hwaits hholds hstate
  refine ⟨old ++ [.add ⟨ikey.userKey, v⟩ ctx], waiting, owed, hsplit, hone,
    ⟨h.status, h.finishedBlobs, h.finishedSound, ?_, ?_, fun hf => absurd hf hmode, ?_, hwaiting⟩,
    hready⟩
  · rw [Option.map_some, after_append_add]
  · intro file hfile
    obtain rfl := Option.some.inj hfile
    exact hnew
  · exact hbase.imp fun _ _ hpassed => hpassed.mono hsound.finds_append_add

/-- The calls so far are with the base builder or wait. -/
def Reached (c : Config) (calls : List AddCall) (t : State) : Prop :=
  ∃ finished current done pending, done ++ pending = calls ∧ Inv c finished current done pending t

theorem Inv.ok (h : Inv c finished current done pending t) : t.ok = true := by
  rw [State.ok, h.status, h.blob]
  cases current with
  | none => rfl
  | some file =>
      have hok := (h.currentSound file rfl).holding.options.2
      simp [hok]

theorem Inv.addBlob (h : Inv c finished current done pending t) (hmode : c.blobRunMode ≠ .kFallback)
    (hkey : parseInternalKey call.key = .ok ikey) {v : Bytes}
    (hv : c.Denotes ikey.type call.value v) (hstorable : c.Storable ⟨ikey.userKey, v⟩) :
    Reached c (done ++ pending ++ [call]) (c.addBlob t ikey v) := by
  obtain ⟨held, waiting, owed, hsplit, hone, hinv, hready⟩ :=
    h.push hmode hkey hv hstorable (Prod.mk.eta (p := c.currentBlob t)).symm rfl
  rw [List.append_assoc, ← hsplit]
  rw [Config.addBlob, if_neg (by rw [h.ok]; exact Bool.false_ne_true)]
  dsimp only
  split_ifs
  · obtain ⟨finished', hfinished, hmono⟩ := hinv.finishBlobFile
    refine ⟨finished', none, done ++ waiting ++ owed, [], by simp, ?_⟩
    exact hfinished.addResults (hready.imp fun _ _ hr => hr.mono hmono)
  · rcases hone with rfl | rfl
    · exact ⟨finished, some _, done ++ owed, [], by simp, hinv.addResults hready⟩
    · refine ⟨finished, some ((c.currentBlob t).1, held), done, waiting, by simp, ?_⟩
      rw [List.forall₂_nil_left_iff.mp hready]
      exact hinv

/-- Where no file is buffered the call goes to the base builder. -/
theorem Inv.addBase_direct (h : Inv c finished current done pending t)
    (hkey : parseInternalKey call.key = .ok ikey) (hpending : pending = [])
    (hunbuffered : t.builderUnbuffered = true) :
    Reached c (done ++ pending ++ [call]) (t.addBase call.key ikey call.value) := by
  rw [State.addBase, if_pos hunbuffered, hpending, List.append_nil]
  refine ⟨finished, current, done ++ [call], [], List.append_nil _, ?_⟩
  exact ⟨h.status, h.finishedBlobs, h.finishedSound, h.blob, h.currentSound, h.fallback,
    List.rel_append h.base (.cons (passedBy_same hkey) .nil), hpending ▸ h.waits⟩

/-- A buffered file takes the call as an inline entry. -/
theorem Inv.addBase_buffered {number : UInt64} {held : List BuilderCall}
    (h : Inv c finished (some (number, held)) done pending t)
    (hkey : parseInternalKey call.key = .ok ikey)
    (hstate : (c.after held).1.builderState = .kBuffered) (hout : (c.after held).2 = []) :
    Reached c (done ++ pending ++ [call]) (t.addBase call.key ikey call.value) := by
  have hsound : c.Sound held := h.currentSound _ rfl
  have hblob : t.blob = some (number, (c.after held).1) := h.blob
  have hwaits := h.waits
  rw [Config.Waits, if_pos hstate] at hwaits
  have hbuffered : ¬t.builderUnbuffered = true := by
    rw [State.builderUnbuffered, hblob, Option.all_some, hstate]
    exact nofun
  have hmore : c.Sound (held ++ [.addSmall
      { key := call.key, hasValue := true, value := call.value }]) :=
    hsound.append rfl (fun _ => hstate) nofun
  have hafter : c.after (held ++ [.addSmall
      { key := call.key, hasValue := true, value := call.value }]) =
      ((c.after held).1.addSmall { key := call.key, hasValue := true, value := call.value },
        (c.after held).2) := by
    rw [Config.after, afterCalls, List.foldl_append]
    rfl
  rw [State.addBase, if_neg hbuffered, (appendInternalKey_of_parse hkey).1]
  refine ⟨finished, some (number, held ++ [.addSmall
    { key := call.key, hasValue := true, value := call.value }]), done, pending ++ [call],
    by simp, ?_⟩
  refine ⟨h.status, h.finishedBlobs, h.finishedSound, ?_, ?_, ?_, ?_, ?_⟩
  · rw [hblob, Option.map_some, hafter]
    rfl
  · intro file hfile
    obtain rfl := Option.some.inj hfile
    exact hmore
  · intro hmode
    cases h.fallback hmode
  · refine h.base.imp fun _ _ hpassed => hpassed.mono ?_
    rintro index record (hold | ⟨file, hfile, -, hitem⟩)
    · exact Or.inl hold
    · obtain rfl := Option.some.inj hfile
      rw [hout, blobItems_nil] at hitem
      cases hitem
  · have hstill : (c.after (held ++ [.addSmall
        { key := call.key, hasValue := true, value := call.value }])).1.builderState =
        .kBuffered := by
      rw [hafter]
      exact hstate
    rw [Config.Waits, if_pos hstill]
    exact List.rel_append hwaits (.cons ⟨ikey, hkey, rfl⟩ .nil)

/-- An entry that goes to the base builder, at once or behind the records that wait. -/
theorem Inv.addBase (h : Inv c finished current done pending t)
    (hkey : parseInternalKey call.key = .ok ikey) :
    Reached c (done ++ pending ++ [call]) (t.addBase call.key ikey call.value) := by
  cases current with
  | none =>
      refine h.addBase_direct hkey h.waits ?_
      rw [State.builderUnbuffered, h.blob]
      rfl
  | some file =>
      obtain ⟨number, held⟩ := file
      have hsound : c.Sound held := h.currentSound _ rfl
      have hblob : t.blob = some (number, (c.after held).1) := h.blob
      have hwaits := h.waits
      rcases hsound.cases with ⟨hstate, hout, -⟩ | ⟨hstate, -, -⟩
      · exact h.addBase_buffered hkey hstate hout
      · rw [Config.Waits, if_neg (by rw [hstate]; decide)] at hwaits
        refine h.addBase_direct hkey hwaits ?_
        rw [State.builderUnbuffered, hblob, Option.all_some, hstate]
        rfl

/-- One call of `Add`. -/
theorem Reached.add {calls : List AddCall} (h : Reached c calls t) (hcall : c.Valid call) :
    Reached c (calls ++ [call]) (c.add t call) := by
  obtain ⟨finished, current, done, pending, rfl, hinv⟩ := h
  obtain ⟨ikey, hkey, hread, hstorable⟩ := hcall
  have hsame : { t with status := .ok } = t := by rw [← hinv.status]
  rw [Config.add, if_neg (by rw [hinv.ok]; exact Bool.false_ne_true), hkey]
  dsimp only
  rw [hsame]
  split_ifs with hback hvalue hsmall hmerge
  · -- the value comes back from its blob file
    obtain ⟨v, hv⟩ := hread hback.1
    have hnone : current = none := hinv.fallback hback.2
    have hpending : pending = [] := by
      have hwaits := hinv.waits
      rw [hnone] at hwaits
      exact hwaits
    rcases hv with ⟨htype, -⟩ | ⟨-, index, rest, record, hdecode, hget, rfl⟩
    · cases hback.1.symm.trans htype
    rw [hdecode]
    dsimp only
    rw [hget]
    refine ⟨finished, current, done ++ [call], [], by simp [hpending], ?_⟩
    have hv : c.Denotes ikey.type call.value record.value :=
      Or.inr ⟨hback.1, index, rest, record, hdecode, hget, rfl⟩
    exact ⟨hinv.status, hinv.finishedBlobs, hinv.finishedSound, hinv.blob, hinv.currentSound,
      hinv.fallback, List.rel_append hinv.base (.cons (passedBy_inline hkey hv) .nil),
      hpending ▸ hinv.waits⟩
  · exact hinv.addBase hkey
  · have hv : c.Denotes ikey.type call.value call.value := Or.inl ⟨hvalue.1, rfl⟩
    exact hinv.addBlob (by rw [hvalue.2]; decide) hkey hv (hstorable _ hv)
  · -- the value moves to a new blob file, if it can be read
    obtain ⟨v, hv⟩ := hread hmerge.1
    rcases hv with ⟨htype, -⟩ | ⟨-, index, rest, record, hdecode, hget, rfl⟩
    · cases hmerge.1.symm.trans htype
    have hv : c.Denotes ikey.type call.value record.value :=
      Or.inr ⟨hmerge.1, index, rest, record, hdecode, hget, rfl⟩
    rw [hdecode]
    dsimp only
    split_ifs
    · rw [hget]
      dsimp only
      have hreached := hinv.addBlob (by rw [hmerge.2.2.2]; decide) hkey hv (hstorable _ hv)
      obtain ⟨finished', current', done', pending', hsplit, hinv'⟩ := hreached
      rw [if_pos hinv'.ok]
      exact ⟨finished', current', done', pending', hsplit, hinv'⟩
    · exact hinv.addBase hkey
  · exact hinv.addBase hkey

theorem reached_foldl {calls : List AddCall} (hcalls : ∀ call ∈ calls, c.Valid call) :
    Reached c calls (calls.foldl c.add {}) := by
  induction calls using List.reverseRecOn with
  | nil =>
      exact ⟨[], none, [], [], rfl, rfl, rfl, nofun, rfl, nofun, fun _ => rfl, .nil, rfl⟩
  | append_singleton calls call ih =>
      rw [List.foldl_append]
      exact (ih fun other hmem => hcalls other (List.mem_append_left _ hmem)).add
        (hcalls call (List.mem_append_right _ (List.mem_singleton.mpr rfl)))

/-- What is found in a finished file is read from it. -/
theorem readsBack_of_finds (hinverts : c.options.codec.Inverts)
    (hsound : ∀ file ∈ finished, c.Sound file.2)
    (hfits : ∀ file ∈ finished, (c.fileOf file.2).1.file.length < 2 ^ 64) {index : BlobIndex}
    {record : BlobRecord} (h : c.Finds finished none index record) :
    c.ReadsBack (finished.map fun file => (file.1, (c.fileOf file.2).1.file)) index record := by
  rcases h with ⟨file, hfile, hnumber, hitem⟩ | ⟨file, hfile, -⟩
  swap
  · cases hfile
  have hs := hsound file hfile
  have hpack : Packable c.options BlobFileHeader.kVersion2 file.2 := by
    refine ⟨Or.inl rfl, hinverts, hs.tagged, hs.small, fun r hr => ?_, hfits file hfile⟩
    obtain ⟨hk, hv, hpayload⟩ := hs.storable r hr
    exact ⟨hk, hv, hpayload _⟩
  refine ⟨(c.fileOf file.2).1.file, ?_, fun blobCache => ?_⟩
  · rw [hnumber]
    exact List.mem_map_of_mem hfile
  · obtain ⟨reader, hopen, hread⟩ := hpack.reads blobCache
    exact ⟨reader, hopen, hread [] (fun _ hh => (by cases hh)) _ _ hitem⟩

/-- After `Finish` the base builder has one entry for each call, in their order, with the meaning that
the call had. -/
theorem build_passes {calls : List AddCall} (hcalls : ∀ call ∈ calls, c.Valid call)
    (hinverts : c.options.codec.Inverts)
    (hfits : ∀ file ∈ (c.build calls).finishedBlobs, file.2.length < 2 ^ 64) :
    List.Forall₂ (c.PassedBy (c.ReadsBack (c.build calls).finishedBlobs)) calls
      (c.build calls).base := by
  obtain ⟨finished, current, done, pending, hsplit, hinv⟩ := reached_foldl hcalls
  obtain ⟨finished', hfinished, -⟩ := hinv.finishBlobFile
  have hfiles : (c.build calls).finishedBlobs =
      finished'.map fun file => (file.1, (c.fileOf file.2).1.file) := hfinished.finishedBlobs
  have hbase : List.Forall₂ (c.PassedBy (c.Finds finished' none)) calls (c.build calls).base := by
    have h := hfinished.base
    rw [hsplit] at h
    exact h
  rw [hfiles] at hfits ⊢
  refine hbase.imp fun _ _ hpassed => hpassed.mono fun index record hfinds => ?_
  refine readsBack_of_finds hinverts hfinished.finishedSound (fun file hfile => ?_) hfinds
  exact hfits _ (List.mem_map_of_mem hfile)

/-- A compaction with level merge and a dictionary. File 3 is to be merged and has the value of
key 8. -/
def mergingCompaction : Config where
  blobRunMode := .kNormal
  minBlobSize := 2
  blobFileTargetSize := 40
  levelMerge := true
  targetLevel := 6
  mergeLevel := 5
  options := smallTrainOptions
  newFile := fun n => UInt64.ofNat (10 + n)
  getBlobRecord := fun number _ =>
    if number = 3 then .ok ⟨[8], [80, 81]⟩ else .error (.notFound "missing blob file")

/-- A large value that waits, a deletion behind it, and an index whose value fills the samples. -/
def mergingCalls : List AddCall :=
  [⟨appendInternalKey ⟨[5], 9, .kTypeValue⟩, [50, 51], fun _ => none⟩,
    ⟨appendInternalKey ⟨[6], 7, .kTypeDeletion⟩, [], fun _ => none⟩,
    ⟨appendInternalKey ⟨[8], 4, .kTypeBlobIndex⟩,
      BlobIndex.encodeTo { fileNumber := 3, blobHandle := ⟨12, 14, 0⟩ },
      fun _ => some ⟨5, .kToMerge⟩⟩]

theorem mergingCalls_valid : ∀ call ∈ mergingCalls, mergingCompaction.Valid call := by
  intro call hmem
  simp only [mergingCalls, List.mem_cons, List.not_mem_nil, or_false] at hmem
  have hsmall (record : BlobRecord) (hkey : record.key.length < 2 ^ 32)
      (hvalue : record.value.length < 2 ^ 32) (hall : record.encodeTo.length < 2 ^ 32) :
      mergingCompaction.Storable record := ⟨hkey, hvalue, fun _ => hall⟩
  rcases hmem with rfl | rfl | rfl
  · refine ⟨⟨[5], 9, .kTypeValue⟩, rfl, nofun, ?_⟩
    rintro v (⟨-, rfl⟩ | ⟨htype, -⟩)
    · exact hsmall _ (by decide) (by decide) (by decide)
    · cases htype
  · refine ⟨⟨[6], 7, .kTypeDeletion⟩, rfl, nofun, ?_⟩
    rintro v (⟨htype, -⟩ | ⟨htype, -⟩)
    · cases htype
    · cases htype
  · have hv : mergingCompaction.Denotes .kTypeBlobIndex
        (BlobIndex.encodeTo { fileNumber := 3, blobHandle := ⟨12, 14, 0⟩ }) [80, 81] :=
      Or.inr ⟨rfl, { fileNumber := 3, blobHandle := ⟨12, 14, 0⟩ }, [], ⟨[8], [80, 81]⟩,
        BlobIndex.decodeFrom_encodeTo_of_plain _ _, rfl, rfl⟩
    refine ⟨⟨[8], 4, .kTypeBlobIndex⟩, rfl, fun _ => ⟨_, hv⟩, ?_⟩
    intro w hw
    obtain rfl := hv.unique hw
    exact hsmall _ (by decide) (by decide) (by decide)

/-- The compaction passes on three entries, two of them as indexes into the new file 10. -/
theorem mergingCalls_passed :
    (∀ call ∈ mergingCalls, mergingCompaction.Valid call) ∧
      (mergingCompaction.build mergingCalls).finishedBlobs.map (·.1) = [10] ∧
      (mergingCompaction.build mergingCalls).base.length = 3 ∧
      List.Forall₂ (mergingCompaction.PassedBy (mergingCompaction.ReadsBack
        (mergingCompaction.build mergingCalls).finishedBlobs)) mergingCalls
        (mergingCompaction.build mergingCalls).base :=
  ⟨mergingCalls_valid, by decide +kernel, by decide +kernel,
    build_passes mergingCalls_valid (fun dict input output h => (by cases h)) (by decide +kernel)⟩

end AegonKV.TableBuilder

import AegonKV.FaultyBuilder
import AegonKV.TransitionSystem
import Mathlib.Data.List.TakeWhile

/-!
# Which write errors `Finish` reports

The calls of a builder on its file are numbered in the order they are made, and `results` says which
of them fail. Whatever the builder writes, it writes in pairs of calls, the second of them only after
the first one succeeded: header and payload of a record, a block and its trailer, the footer and the
`Flush`. A step of the builder makes a row of such pairs and keeps the status of the last one.
-/

namespace AegonKV
open LittleEndian TransitionSystem

/-- The result of each call on the file: nothing where it succeeds, else the bytes a failed append
leaves behind. -/
abbrev CallResults := ℕ → Option Bytes

namespace CallResults

variable (results : CallResults)

def faults : WriteFaults := fun _ n => results n

def pairOk (n : ℕ) : Bool := (results n).isNone && (results (n + 1)).isNone

def pairEnd (n : ℕ) : ℕ := if (results n).isNone then n + 2 else n + 1

def pairsEnd : ℕ → ℕ → ℕ
  | 0, n => n
  | k + 1, n => pairsEnd k (results.pairEnd n)

/-- Whether the status is OK after `k` pairs, each of which assigns it anew. -/
def okAfter : ℕ → ℕ → Bool → Bool
  | 0, _, ok => ok
  | k + 1, n, _ => okAfter k (results.pairEnd n) (results.pairOk n)

def FailedBefore (n : ℕ) : Prop := ∃ i < n, (results i).isSome = true

variable {results}

theorem pairsEnd_add (k j n : ℕ) :
    results.pairsEnd (k + j) n = results.pairsEnd j (results.pairsEnd k n) := by
  induction k generalizing n with
  | zero => rw [Nat.zero_add, pairsEnd]
  | succ k ih => rw [Nat.succ_add, pairsEnd, pairsEnd, ih]

theorem okAfter_add (k j n : ℕ) (ok : Bool) :
    results.okAfter (k + j) n ok =
      results.okAfter j (results.pairsEnd k n) (results.okAfter k n ok) := by
  induction k generalizing n ok with
  | zero => rw [Nat.zero_add, pairsEnd, okAfter]
  | succ k ih => rw [Nat.succ_add, okAfter, pairsEnd, okAfter, ih]

theorem le_pairsEnd (k n : ℕ) : n ≤ results.pairsEnd k n := by
  induction k generalizing n with
  | zero => exact le_rfl
  | succ k ih =>
      have hpair : n ≤ results.pairEnd n := by
        unfold pairEnd
        split_ifs <;> omega
      exact hpair.trans (ih _)

theorem FailedBefore.mono {m n : ℕ} (h : results.FailedBefore m) (hle : m ≤ n) :
    results.FailedBefore n := by
  obtain ⟨i, hi, hfail⟩ := h
  exact ⟨i, hi.trans_le hle, hfail⟩

/-- None of the calls that `k` pairs from call `n` on make without a failure fails. -/
def NoneFails (results : CallResults) (k n : ℕ) : Prop :=
  ∀ i, n ≤ i → i < n + 2 * k → results i = none

theorem noneFails_succ {k n : ℕ} : results.NoneFails (k + 1) n ↔
    results n = none ∧ results (n + 1) = none ∧ results.NoneFails k (n + 2) := by
  constructor
  · intro h
    exact ⟨h n le_rfl (by omega), h (n + 1) (by omega) (by omega),
      fun i hi hlt => h i (by omega) (by omega)⟩
  · rintro ⟨hfirst, hsecond, hrest⟩ i hi hlt
    obtain rfl | rfl | hge : i = n ∨ i = n + 1 ∨ n + 2 ≤ i := by omega
    · exact hfirst
    · exact hsecond
    · exact hrest i hge (by omega)

/-- A call of a row of pairs fails exactly where one of those fails that the row makes without a
failure. -/
theorem failedBefore_pairsEnd_iff (k n : ℕ) :
    results.FailedBefore (results.pairsEnd k n) ↔
      results.FailedBefore n ∨ ¬ results.NoneFails k n := by
  induction k generalizing n with
  | zero =>
      have hnone : results.NoneFails 0 n := fun i hi hlt => (by omega)
      simp only [pairsEnd, hnone, not_true, or_false]
  | succ k ih =>
      rw [pairsEnd, noneFails_succ]
      cases hfirst : results n with
      | some torn =>
          have hend : results.pairEnd n = n + 1 := by simp [pairEnd, hfirst]
          have hfail : results.FailedBefore (n + 1) := ⟨n, Nat.lt_succ_self n, by rw [hfirst]; rfl⟩
          rw [hend]
          exact iff_of_true (hfail.mono (le_pairsEnd k _)) (.inr fun h => (by cases h.1))
      | none =>
          have hend : results.pairEnd n = n + 2 := by simp [pairEnd, hfirst]
          rw [hend]
          cases hsecond : results (n + 1) with
          | some torn =>
              have hfail : results.FailedBefore (n + 2) :=
                ⟨n + 1, Nat.lt_succ_self _, by rw [hsecond]; rfl⟩
              exact iff_of_true (hfail.mono (le_pairsEnd k _)) (.inr fun h => (by cases h.2.1))
          | none =>
              have hskip : results.FailedBefore (n + 2) ↔ results.FailedBefore n := by
                refine ⟨fun ⟨i, hi, hfail⟩ => ⟨i, ?_, hfail⟩, fun h => h.mono (by omega)⟩
                by_contra hge
                obtain rfl | rfl : i = n ∨ i = n + 1 := by omega
                · rw [hfirst] at hfail
                  cases hfail
                · rw [hsecond] at hfail
                  cases hfail
              rw [ih, hskip]
              simp only [true_and]

end CallResults

namespace FaultyBuilder

variable {results : CallResults} {f g : FaultyBuilder}

/-- There is a context without a value for every sample. -/
def ContextsLeft (samples : List Bytes) (contexts : List BlobRecordContext) : Prop :=
  samples.length ≤ contexts.countP fun ctx => !ctx.hasValue

/-- It is so for the samples that wait. -/
def Matched (f : FaultyBuilder) : Prop :=
  ContextsLeft f.builder.sampleRecords f.builder.cachedContexts

/-- The builder has made `k` pairs of calls. -/
structure Wrote (results : CallResults) (k : ℕ) (f g : FaultyBuilder) : Prop where
  calls : g.calls = results.pairsEnd k f.calls
  ok : g.builder.status.isOk = results.okAfter k f.calls f.builder.status.isOk
  options : g.builder.options = f.builder.options
  matched : f.Matched → g.Matched

theorem Wrote.trans {k j : ℕ} {h : FaultyBuilder} (hk : Wrote results k f g)
    (hj : Wrote results j g h) : Wrote results (k + j) f h := by
  refine ⟨?_, ?_, hj.options.trans hk.options, fun hm => hj.matched (hk.matched hm)⟩
  · rw [hj.calls, hk.calls, CallResults.pairsEnd_add]
  · rw [hj.ok, hk.calls, hk.ok, CallResults.okAfter_add]

structure Kept (f g : FaultyBuilder) : Prop where
  options : g.builder.options = f.builder.options
  samples : g.builder.sampleRecords = f.builder.sampleRecords
  contexts : g.builder.cachedContexts = f.builder.cachedContexts

theorem Kept.matched (h : Kept f g) (hm : f.Matched) : g.Matched := by
  rw [Matched, h.samples, h.contexts]
  exact hm

theorem Kept.trans {h : FaultyBuilder} (hfg : Kept f g) (hgh : Kept g h) : Kept f h :=
  ⟨hgh.options.trans hfg.options, hgh.samples.trans hfg.samples, hgh.contexts.trans hfg.contexts⟩

theorem wrote_zero (hkept : Kept f g) (hcalls : g.calls = f.calls)
    (hstatus : g.builder.status = f.builder.status) : Wrote results 0 f g :=
  ⟨hcalls, congrArg Status.isOk hstatus, hkept.options, hkept.matched⟩

theorem append_calls (faults : WriteFaults) (f : FaultyBuilder) (site : WriteSite) (data : Bytes) :
    (f.append faults site data).calls = f.calls + 1 := by
  unfold append
  cases faults site f.calls <;> rfl

theorem append_kept (faults : WriteFaults) (f : FaultyBuilder) (site : WriteSite) (data : Bytes) :
    Kept f (f.append faults site data) := by
  unfold append
  cases faults site f.calls <;> exact ⟨rfl, rfl, rfl⟩

theorem append_isOk (results : CallResults) (f : FaultyBuilder) (site : WriteSite) (data : Bytes) :
    (f.append results.faults site data).builder.status.isOk = (results f.calls).isNone := by
  unfold append CallResults.faults
  cases results f.calls <;> rfl

theorem flush_isOk (results : CallResults) (f : FaultyBuilder) :
    (f.flush results.faults).builder.status.isOk = (results f.calls).isNone := by
  cases hcall : results f.calls with
  | none => simp [flush, CallResults.faults, hcall]
  | some torn =>
      simp only [flush, CallResults.faults, hcall, Option.isSome_some, if_true]
      rfl

/-- Two calls, the second after the first one succeeded. -/
theorem wrote_pair (site : WriteSite) (data : Bytes) {last : FaultyBuilder}
    (hnext : (f.append results.faults site data).builder.status.isOk = true →
      last.calls = f.calls + 2 ∧ last.builder.status.isOk = (results (f.calls + 1)).isNone ∧
        Kept (f.append results.faults site data) last)
    (hstop : (f.append results.faults site data).builder.status.isOk = false →
      last = f.append results.faults site data) : Wrote results 1 f last := by
  have hkept := append_kept results.faults f site data
  have hok := append_isOk results f site data
  cases hfirst : (f.append results.faults site data).builder.status.isOk with
  | true =>
      obtain ⟨hlast, hstatus, hkept'⟩ := hnext hfirst
      rw [hfirst] at hok
      refine ⟨?_, ?_, (hkept.trans hkept').options, (hkept.trans hkept').matched⟩
      · simp only [CallResults.pairsEnd, CallResults.pairEnd, ← hok, if_true, hlast]
      · simp only [CallResults.okAfter, CallResults.pairOk, ← hok, hstatus, Bool.true_and]
  | false =>
      obtain rfl := hstop hfirst
      rw [hfirst] at hok
      refine ⟨?_, ?_, hkept.options, hkept.matched⟩
      · simp only [CallResults.pairsEnd, CallResults.pairEnd, ← hok, append_calls,
          Bool.false_eq_true, if_false]
      · simp only [CallResults.okAfter, CallResults.pairOk, ← hok, hfirst, Bool.false_and]

/-- The second call is an append too. -/
theorem second_append (results : CallResults) (site : WriteSite) (data data' : Bytes) :
    let first := f.append results.faults site data
    (first.append results.faults site data').calls = f.calls + 2 ∧
      (first.append results.faults site data').builder.status.isOk =
        (results (f.calls + 1)).isNone ∧
      Kept first (first.append results.faults site data') := by
  refine ⟨?_, ?_, append_kept _ _ _ _⟩
  · rw [append_calls, append_calls]
  · rw [append_isOk, append_calls]

theorem wrote_writeEncoderData (site : WriteSite) (encoded : Bytes) :
    Wrote results 1 f (f.writeEncoderData results.faults site encoded).1 := by
  let live : FaultyBuilder := { f with builder := { f.builder with
    liveDataSize := f.builder.liveDataSize + encoded.length } }
  have hpair : Wrote results 1 live (f.writeEncoderData results.faults site encoded).1 := by
    refine wrote_pair site (encoded.take kRecordHeaderSize) ?_ ?_
    · intro hok
      simp only [writeEncoderData, live, hok, if_true]
      obtain ⟨hcalls, hstatus, hkept⟩ := second_append (f := live) results site
        (encoded.take kRecordHeaderSize) (encoded.drop kRecordHeaderSize)
      exact ⟨hcalls, hstatus, ⟨hkept.options, hkept.samples, hkept.contexts⟩⟩
    · intro hfailed
      simp only [writeEncoderData, live, hfailed, Bool.false_eq_true, if_false]
  exact ⟨hpair.calls, hpair.ok, hpair.options, hpair.matched⟩

theorem wrote_writeRawBlock (block : Bytes) :
    Wrote results 1 f (f.writeRawBlock results.faults block).1 := by
  refine wrote_pair .block block ?_ ?_
  · intro hok
    simp only [writeRawBlock, hok, if_true]
    exact second_append results .block block _
  · intro hfailed
    simp only [writeRawBlock, hfailed, Bool.false_eq_true, if_false]

theorem wrote_writeFooter (footer : BlobFileFooter) :
    Wrote results 1 f (f.writeFooter results.faults footer) := by
  refine wrote_pair .footer footer.encodeTo ?_ ?_
  · intro hok
    simp only [writeFooter, hok, if_true]
    refine ⟨?_, ?_, ⟨rfl, rfl, rfl⟩⟩
    · simp only [flush, append_calls]
    · rw [flush_isOk, append_calls]
  · intro hfailed
    simp only [writeFooter, hfailed, Bool.false_eq_true, if_false]

theorem wrote_writeMetaBlocks : Wrote results 2 f (f.writeMetaBlocks results.faults).1 :=
  (wrote_writeRawBlock _).trans (wrote_writeRawBlock _)

theorem wrote_flushSamples {samples : List Bytes} {contexts : List BlobRecordContext}
    (hleft : ContextsLeft samples contexts) :
    Wrote results samples.length f (f.flushSamples results.faults samples contexts).1 := by
  induction samples generalizing f contexts with
  | nil => exact wrote_zero ⟨rfl, rfl, rfl⟩ rfl rfl
  | cons sample samples ih =>
      have hdrop : contexts.countP (fun ctx => !ctx.hasValue) =
          (contexts.dropWhile (·.hasValue)).countP fun ctx => !ctx.hasValue := by
        conv_lhs => rw [← List.takeWhile_append_dropWhile (p := (·.hasValue)) (l := contexts)]
        rw [List.countP_append, Nat.add_eq_right, List.countP_eq_zero]
        intro ctx hctx
        simpa using List.mem_takeWhile_imp hctx
      rw [ContextsLeft, hdrop, List.length_cons] at hleft
      cases hrest : contexts.dropWhile (·.hasValue) with
      | nil =>
          rw [hrest, List.countP_nil] at hleft
          omega
      | cons ctx rest =>
          have hleft' : ContextsLeft samples rest := by
            rw [hrest, List.countP_cons] at hleft
            unfold ContextsLeft
            split_ifs at hleft <;> omega
          simp only [flushSamples, hrest, List.length_cons]
          rw [Nat.add_comm]
          exact (wrote_writeEncoderData _ _).trans (ih hleft')

theorem wrote_enterUnbuffered (hm : f.Matched) :
    Wrote results f.builder.sampleRecords.length f (f.enterUnbuffered results.faults).1 := by
  let b := f.builder
  let dict := b.options.trainDictionary b.sampleRecords.flatten (b.sampleRecords.map (·.length))
    b.options.maxDictBytes
  let trained : FaultyBuilder :=
    { f with builder := { b with compressionDict := some dict, encoderDict := dict } }
  have h : Wrote results b.sampleRecords.length trained
      (trained.flushSamples results.faults b.sampleRecords b.cachedContexts).1 :=
    wrote_flushSamples hm
  exact ⟨h.calls, h.ok, h.options, fun _ => Nat.zero_le _⟩

end FaultyBuilder

/-! ## Steps of the builder -/

inductive BuilderStep
  | call (c : BuilderCall)
  | finish

namespace BuilderStep

/-- The contexts tell blobs and inline entries apart. -/
def Tagged : BuilderStep → Prop
  | .call (.add _ ctx) => ctx.hasValue = false
  | .call (.addSmall ctx) => ctx.hasValue = true
  | .finish => True

instance : DecidablePred Tagged
  | .call (.add _ ctx) => inferInstanceAs (Decidable (ctx.hasValue = false))
  | .call (.addSmall ctx) => inferInstanceAs (Decidable (ctx.hasValue = true))
  | .finish => inferInstanceAs (Decidable True)

/-- The builder after a call; `Finish` returns the status it leaves. -/
def apply (results : CallResults) (f : FaultyBuilder) : BuilderStep → FaultyBuilder
  | .call (.add record ctx) => (f.add results.faults record ctx).1
  | .call (.addSmall ctx) => { f with builder := f.builder.addSmall ctx }
  | .finish => (f.finish results.faults).1

def pairs (f : FaultyBuilder) : BuilderStep → ℕ
  | .call (.add record _) =>
    if !f.builder.status.isOk then 0
    else if f.builder.builderState = .kUnbuffered then 1
    else if f.builder.options.zstdMaxTrainBytes > 0 ∧
        f.builder.sampleStrLen + record.encodeTo.length ≥ f.builder.options.zstdMaxTrainBytes then
      f.builder.sampleRecords.length + 1
    else 0
  | .call (.addSmall _) => 0
  | .finish =>
    if !f.builder.status.isOk then 0
    else (if f.builder.builderState = .kBuffered then f.builder.sampleRecords.length else 0) +
      (if f.builder.options.maxDictBytes > 0 then 2 else 0) + 1

end BuilderStep

namespace FaultyBuilder

variable {results : CallResults} {f : FaultyBuilder}

theorem matched_sampled (hm : f.Matched) (record : BlobRecord) {ctx : BlobRecordContext}
    (hctx : ctx.hasValue = false) :
    Matched { f with builder := f.builder.sampled record ctx } := by
  have hlen : (f.builder.sampled record ctx).sampleRecords.length =
      f.builder.sampleRecords.length + 1 := List.length_append
  have hcount : (f.builder.sampled record ctx).cachedContexts.countP (fun ctx => !ctx.hasValue) =
      f.builder.cachedContexts.countP (fun ctx => !ctx.hasValue) + 1 := by
    simp [BlobFileBuilder.sampled, hctx]
  unfold Matched ContextsLeft at hm ⊢
  rw [hlen, hcount]
  omega

theorem wrote_add (hm : f.Matched) (record : BlobRecord) {ctx : BlobRecordContext}
    (hctx : ctx.hasValue = false) :
    Wrote results (BuilderStep.pairs f (.call (.add record ctx))) f
      (f.add results.faults record ctx).1 := by
  cases hok : f.builder.status.isOk with
  | false =>
      simp only [BuilderStep.pairs, FaultyBuilder.add, hok, Bool.not_false, if_true]
      exact wrote_zero ⟨rfl, rfl, rfl⟩ rfl rfl
  | true =>
      cases hstate : f.builder.builderState with
      | kUnbuffered =>
          have h : Wrote results 1 f (f.writeEncoderData results.faults .record
            (BlobEncoder.encodeRecord f.builder.compress record)).1 := wrote_writeEncoderData _ _
          simp only [BuilderStep.pairs, FaultyBuilder.add, hok, hstate, Bool.not_true,
            Bool.false_eq_true, if_false, if_true]
          exact ⟨h.calls, h.ok, h.options, h.matched⟩
      | kBuffered =>
          let sampled : FaultyBuilder := { f with builder := f.builder.sampled record ctx }
          have hsampled : sampled.Matched := matched_sampled hm record hctx
          rw [add_kBuffered hok hstate]
          simp only [BuilderStep.pairs, hok, hstate, Bool.not_true, Bool.false_eq_true, if_false,
            reduceCtorEq]
          split_ifs with htrain
          · have h : Wrote results sampled.builder.sampleRecords.length sampled
                (sampled.enterUnbuffered results.faults).1 := wrote_enterUnbuffered hsampled
            have hlen : sampled.builder.sampleRecords.length =
                f.builder.sampleRecords.length + 1 := List.length_append
            rw [hlen] at h
            exact ⟨h.calls, h.ok, h.options, fun _ => h.matched hsampled⟩
          · exact ⟨rfl, rfl, rfl, fun _ => hsampled⟩

theorem wrote_finish (hm : f.Matched) :
    Wrote results (BuilderStep.pairs f .finish) f (f.finish results.faults).1 := by
  cases hok : f.builder.status.isOk with
  | false =>
      simp only [BuilderStep.pairs, FaultyBuilder.finish, hok, Bool.not_false, if_true]
      exact wrote_zero ⟨rfl, rfl, rfl⟩ rfl rfl
  | true =>
      have hbuffer : Wrote results
          (if f.builder.builderState = .kBuffered then f.builder.sampleRecords.length else 0) f
          (if f.builder.builderState = .kBuffered then f.enterUnbuffered results.faults
            else (f, [])).1 := by
        split_ifs
        · exact wrote_enterUnbuffered hm
        · exact wrote_zero ⟨rfl, rfl, rfl⟩ rfl rfl
      have hmeta : ∀ g : FaultyBuilder, Wrote results
          (if g.builder.options.maxDictBytes > 0 then 2 else 0) g
          (if g.builder.options.maxDictBytes > 0 then g.writeMetaBlocks results.faults
            else (g, {})).1 := by
        intro g
        split_ifs
        · exact wrote_writeMetaBlocks
        · exact wrote_zero ⟨rfl, rfl, rfl⟩ rfl rfl
      simp only [BuilderStep.pairs, FaultyBuilder.finish, hok, Bool.not_true, Bool.false_eq_true,
        if_false]
      have hcount : (if f.builder.options.maxDictBytes > 0 then 2 else 0) =
          if (if f.builder.builderState = .kBuffered then f.enterUnbuffered results.faults
            else (f, [])).1.builder.options.maxDictBytes > 0 then 2 else 0 := by
        rw [hbuffer.options]
      rw [hcount]
      exact (hbuffer.trans (hmeta _)).trans (wrote_writeFooter _)

end FaultyBuilder

namespace BuilderStep

variable {results : CallResults} {f g : FaultyBuilder}

/-- A step of the builder. The source asserts that the contexts are told apart. -/
def step (results : CallResults) (f : FaultyBuilder) (s : BuilderStep) : Option FaultyBuilder :=
  if s.Tagged then some (s.apply results f) else none

theorem step_eq_some {s : BuilderStep} (h : step results f s = some g) :
    s.Tagged ∧ g = s.apply results f := by
  unfold step at h
  split_ifs at h with hs
  exact ⟨hs, (Option.some.inj h).symm⟩

theorem wrote (hm : f.Matched) {s : BuilderStep} (hs : s.Tagged) :
    FaultyBuilder.Wrote results (s.pairs f) f (s.apply results f) := by
  cases s with
  | finish => exact FaultyBuilder.wrote_finish hm
  | call c =>
      cases c with
      | add record ctx => exact FaultyBuilder.wrote_add hm record hs
      | addSmall ctx =>
          refine ⟨rfl, rfl, rfl, fun hm => ?_⟩
          have hinline : ctx.hasValue = true := hs
          simpa [FaultyBuilder.Matched, FaultyBuilder.ContextsLeft, apply, BlobFileBuilder.addSmall,
            hinline] using hm

def NothingFails (results : CallResults) (f : FaultyBuilder) (s : BuilderStep) : Prop :=
  results.NoneFails (s.pairs f) f.calls

def LastSucceeds (results : CallResults) (f : FaultyBuilder) (s : BuilderStep) : Prop :=
  results.okAfter (s.pairs f) f.calls true = true

theorem failedBefore_apply_iff (hm : f.Matched) {s : BuilderStep} (hs : s.Tagged) :
    ¬ results.FailedBefore (s.apply results f).calls ↔
      ¬ results.FailedBefore f.calls ∧ NothingFails results f s := by
  rw [(wrote hm hs).calls, CallResults.failedBefore_pairsEnd_iff, not_or, not_not, NothingFails]

theorem pairs_of_failed (h : f.builder.status.isOk = false) (s : BuilderStep) : s.pairs f = 0 := by
  cases s with
  | finish => simp [pairs, h]
  | call c => cases c <;> simp [pairs, h]

theorem isOk_apply_iff (hm : f.Matched) {s : BuilderStep} (hs : s.Tagged) :
    (s.apply results f).builder.status.isOk = true ↔
      f.builder.status.isOk = true ∧ LastSucceeds results f s := by
  rw [(wrote hm hs).ok, LastSucceeds]
  cases hok : f.builder.status.isOk with
  | true => simp only [true_and]
  | false =>
      rw [pairs_of_failed hok]
      simp [CallResults.okAfter]

theorem matched_step (f : FaultyBuilder) (s : BuilderStep) (g : FaultyBuilder) (hm : f.Matched)
    (h : step results f s = some g) : g.Matched := by
  obtain ⟨hs, rfl⟩ := step_eq_some h
  exact (wrote hm hs).matched hm

theorem failed_step (f : FaultyBuilder) (s : BuilderStep) (g : FaultyBuilder)
    (hf : f.Matched ∧ f.builder.status.isOk = false) (h : step results f s = some g) :
    g.Matched ∧ g.builder.status.isOk = false := by
  refine ⟨matched_step f s g hf.1 h, ?_⟩
  obtain ⟨hs, rfl⟩ := step_eq_some h
  rw [(wrote hf.1 hs).ok, pairs_of_failed hf.2, CallResults.okAfter]
  exact hf.2

theorem nothingFails_of_failed (h : f.builder.status.isOk = false) (s : BuilderStep) :
    NothingFails results f s := by
  intro i hi hlt
  rw [pairs_of_failed h] at hlt
  omega

theorem failedBefore_run_iff {steps : List BuilderStep} (hm : f.Matched)
    (hr : run (step results) f steps = some g) :
    ¬ results.FailedBefore g.calls ↔
      ¬ results.FailedBefore f.calls ∧ Meets (step results) (NothingFails results) f steps := by
  have hgood : ∀ f s g, FaultyBuilder.Matched f → step results f s = some g →
      (¬ results.FailedBefore g.calls ↔
        ¬ results.FailedBefore f.calls ∧ NothingFails results f s) := by
    intro f s g hm h
    obtain ⟨hs, rfl⟩ := step_eq_some h
    exact failedBefore_apply_iff hm hs
  exact run_iff_meets matched_step hgood hm hr

theorem isOk_run_iff {steps : List BuilderStep} (hm : f.Matched)
    (hr : run (step results) f steps = some g) :
    g.builder.status.isOk = true ↔
      f.builder.status.isOk = true ∧ Meets (step results) (LastSucceeds results) f steps := by
  have hgood : ∀ f s g, FaultyBuilder.Matched f → step results f s = some g →
      (g.builder.status.isOk = true ↔
        f.builder.status.isOk = true ∧ LastSucceeds results f s) := by
    intro f s g hm h
    obtain ⟨hs, rfl⟩ := step_eq_some h
    exact isOk_apply_iff hm hs
  exact run_iff_meets matched_step hgood hm hr

end BuilderStep

namespace FaultyBuilder

variable {results : CallResults} {o : BuilderOptions} {version : UInt32} {f : FaultyBuilder}

theorem matched_new : (new results.faults o version).Matched := by
  have hempty : (BlobFileBuilder.new o version).sampleRecords = [] := by
    unfold BlobFileBuilder.new
    split_ifs <;> rfl
  have hnone : (new results.faults o version).builder.sampleRecords = [] := by
    simp only [new]
    split_ifs
    · rw [(append_kept _ _ _ _).samples, hempty]
    · exact hempty
  rw [Matched, hnone]
  exact Nat.zero_le _

/-- Only the header is written so far, and the status tells how that went. -/
theorem new_isOk_of_failed (h : results.FailedBefore (new results.faults o version).calls) :
    (new results.faults o version).builder.status.isOk = false := by
  simp only [new] at h ⊢
  split_ifs at h ⊢ with hok
  · rw [append_calls] at h
    obtain ⟨i, hi, hfail⟩ := h
    obtain rfl : i = 0 := Nat.lt_one_iff.mp hi
    rw [append_isOk, ← Option.not_isSome, hfail]
    rfl
  · exact Bool.eq_false_iff.mpr hok

theorem finish_status (faults : WriteFaults) (f : FaultyBuilder) :
    (f.finish faults).2.2 = (f.finish faults).1.builder.status := by
  unfold finish
  split_ifs <;> rfl

open BuilderStep in
/-- After any calls, `Finish` reports a write error exactly where no call on the file has failed, or
the last pair of calls of some step has. -/
theorem finish_reports_iff {steps : List BuilderStep}
    (hr : run (step results) (new results.faults o version) steps = some f) :
    (results.FailedBefore (f.finish results.faults).1.calls →
        (f.finish results.faults).2.2.isOk = false) ↔
      Meets (step results) (NothingFails results) (new results.faults o version)
          (steps ++ [.finish]) ∨
        ¬ Meets (step results) (LastSucceeds results) (new results.faults o version)
          (steps ++ [.finish]) := by
  have hrun : run (step results) (new results.faults o version) (steps ++ [.finish]) =
      some (f.finish results.faults).1 := by
    rw [run_append, hr]
    rfl
  have hnone := failedBefore_run_iff matched_new hrun
  have hok := isOk_run_iff matched_new hrun
  rw [finish_status, ← Bool.not_eq_true, hok, imp_iff_not_or, hnone]
  cases hstart : (new results.faults o version).builder.status.isOk with
  | true =>
      have hheader : ¬ results.FailedBefore (new results.faults o version).calls := fun h =>
        Bool.false_ne_true ((new_isOk_of_failed h).symm.trans hstart)
      simp only [hheader, not_false_eq_true, true_and]
  | false =>
      -- a builder that has failed makes no call any more
      have hquiet : Meets (step results) (NothingFails results) (new results.faults o version)
          (steps ++ [.finish]) := meets_of_invariant failed_step
        (fun f s hf => nothingFails_of_failed hf.2 s) ⟨matched_new, hstart⟩ _
      exact iff_of_true (.inr fun h => Bool.false_ne_true h.1) (.inl hquiet)

/-- Two records, on their way to a file of which one call fails. -/
def twoRecords : List BuilderStep :=
  [.call (.add ⟨[1], [10]⟩ { key := [1] }), .call (.add ⟨[2], [20]⟩ { key := [2] })]

def callFails (i : ℕ) : CallResults := fun n => if n = i then some [] else none

/-- Without a dictionary the header of the first record cannot be written, and `Finish` says so. -/
theorem failed_record_reported :
    ∃ f, run (BuilderStep.step (callFails 1))
        (new (callFails 1).faults { smallTrainOptions with maxDictBytes := 0 } 2) twoRecords = some f ∧
      (callFails 1).FailedBefore (f.finish (callFails 1).faults).1.calls ∧
      (f.finish (callFails 1).faults).2.2.isOk = false := by
  obtain ⟨f, hf, hcalls⟩ : ∃ f, run (BuilderStep.step (callFails 1))
      (new (callFails 1).faults { smallTrainOptions with maxDictBytes := 0 } 2) twoRecords = some f ∧
      (f.finish (callFails 1).faults).1.calls = 2 := ⟨_, rfl, rfl⟩
  have hfailed : (callFails 1).FailedBefore (f.finish (callFails 1).faults).1.calls :=
    ⟨1, by rw [hcalls]; decide, rfl⟩
  exact ⟨f, hf, hfailed, (finish_reports_iff hf).mpr (.inr fun h => Bool.false_ne_true h.1) hfailed⟩

/-- With one, the records wait for `Finish`. The header of the first cannot be written, what follows
succeeds, and `Finish` returns OK. -/
theorem failed_sample_forgotten :
    ∃ f, run (BuilderStep.step (callFails 1))
        (new (callFails 1).faults { smallTrainOptions with zstdMaxTrainBytes := 0 } 2) twoRecords =
          some f ∧
      (callFails 1).FailedBefore (f.finish (callFails 1).faults).1.calls ∧
      (f.finish (callFails 1).faults).2.2 = .ok := by
  obtain ⟨f, hf, hcalls, hstatus⟩ : ∃ f, run (BuilderStep.step (callFails 1))
      (new (callFails 1).faults { smallTrainOptions with zstdMaxTrainBytes := 0 } 2) twoRecords =
        some f ∧ (f.finish (callFails 1).faults).1.calls = 10 ∧
      (f.finish (callFails 1).faults).2.2 = .ok := ⟨_, rfl, rfl, rfl⟩
  exact ⟨f, hf, ⟨1, by rw [hcalls]; decide, rfl⟩, hstatus⟩

end FaultyBuilder

end AegonKV

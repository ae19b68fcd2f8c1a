import Mathlib.Logic.Function.Basic
import Mathlib.Data.List.Basic

/-!
# Fetching behind a cache

Queries are answered by fetching, which also leaves something worth keeping under the query's key; a
later query with that key views what is kept instead. When everything that a fetch keeps is viewed as
the fetch would answer, no history of hits, misses, evictions and foreign insertions shows in the
answers.
-/

namespace CachedFetch

structure Source (Q κ β ρ ε : Type*) where
  key : Q → κ
  /-- The answer, and what is kept of it. -/
  fetch : Q → Except ε (ρ × β)
  view : Q → β → Except ε ρ

namespace Source
variable {Q κ β ρ ε : Type*} (src : Source Q κ β ρ ε) (allowed : Q → Prop)

def uncached (q : Q) : Except ε ρ := (src.fetch q).map Prod.fst

/-- What happens to the cache. Insertions are made by its other users. -/
inductive Event (Q κ β : Type*)
  | get (q : Q)
  | evict (k : κ)
  | insert (k : κ) (b : β)

def Event.query? : Event Q κ β → Option Q
  | .get q => some q
  | .evict _ => none
  | .insert _ _ => none

/-- The queries are allowed, and other users keep to other keys. -/
def Event.Allowed : Event Q κ β → Prop
  | .get q => allowed q
  | .evict _ => True
  | .insert k _ => ∀ q, allowed q → src.key q ≠ k

/-- What one query leaves is right for every other query of its key. -/
def Coherent : Prop :=
  ∀ q q' r b, allowed q → allowed q' → src.key q = src.key q' → src.fetch q = .ok (r, b) →
    src.view q' b = src.uncached q'

/-- Everything kept is viewed as a fetch would answer. -/
def Sound (cache : κ → Option β) : Prop :=
  ∀ q b, allowed q → cache (src.key q) = some b → src.view q b = src.uncached q

theorem sound_empty : src.Sound allowed fun _ => none := by
  intro q b hq hb
  cases hb

variable [DecidableEq κ]

def get (cache : κ → Option β) (q : Q) : Except ε ρ × (κ → Option β) :=
  match cache (src.key q) with
  | some b => (src.view q b, cache)
  | none =>
    match src.fetch q with
    | .error e => (.error e, cache)
    | .ok (r, b) => (.ok r, Function.update cache (src.key q) (some b))

def step (cache : κ → Option β) : Event Q κ β → Option (Except ε ρ) × (κ → Option β)
  | .get q => (some (src.get cache q).1, (src.get cache q).2)
  | .evict k => (none, Function.update cache k none)
  | .insert k b => (none, Function.update cache k (some b))

def answers (cache : κ → Option β) : List (Event Q κ β) → List (Except ε ρ)
  | [] => []
  | e :: events => (src.step cache e).1.toList ++ answers (src.step cache e).2 events

variable {src allowed} {cache : κ → Option β}

theorem Sound.update (h : src.Sound allowed cache) {k : κ} {kept : Option β}
    (hk : ∀ q b, allowed q → src.key q = k → kept = some b → src.view q b = src.uncached q) :
    src.Sound allowed (Function.update cache k kept) := by
  intro q b hq hb
  by_cases hkey : src.key q = k
  · rw [hkey, Function.update_self] at hb
    exact hk q b hq hkey hb
  · rw [Function.update_of_ne hkey] at hb
    exact h q b hq hb

/-- A query is answered as without the cache. -/
theorem Sound.get_fst (h : src.Sound allowed cache) {q : Q} (hq : allowed q) :
    (src.get cache q).1 = src.uncached q := by
  unfold Source.get
  cases hcache : cache (src.key q) with
  | some b => exact h q b hq hcache
  | none =>
      unfold uncached
      cases src.fetch q with
      | error e => rfl
      | ok p => rfl

theorem Sound.get_snd (h : src.Sound allowed cache) (hc : src.Coherent allowed) {q : Q}
    (hq : allowed q) : src.Sound allowed (src.get cache q).2 := by
  unfold Source.get
  cases hcache : cache (src.key q) with
  | some b => exact h
  | none =>
      cases hfetch : src.fetch q with
      | error e => exact h
      | ok p =>
          refine h.update fun q' b hq' hkey hkept => ?_
          obtain rfl := Option.some.inj hkept
          exact hc q q' p.1 p.2 hq hq' hkey.symm hfetch

theorem Sound.step (h : src.Sound allowed cache) (hc : src.Coherent allowed) {e : Event Q κ β}
    (he : e.Allowed src allowed) : src.Sound allowed (src.step cache e).2 := by
  cases e with
  | get q => exact h.get_snd hc he
  | evict k => exact h.update fun q b _ _ hkept => (by cases hkept)
  | insert k b => exact h.update fun q _ hq hkey _ => absurd hkey (he q hq)

/-- Over a whole run the cache does not show. -/
theorem Sound.answers_eq (h : src.Sound allowed cache) (hc : src.Coherent allowed)
    {events : List (Event Q κ β)} (he : ∀ e ∈ events, e.Allowed src allowed) :
    src.answers cache events = (events.filterMap Event.query?).map src.uncached := by
  induction events generalizing cache with
  | nil => rfl
  | cons e events ih =>
      have hrest := ih (h.step hc (he e List.mem_cons_self)) fun e' he' =>
        he e' (List.mem_cons_of_mem _ he')
      rw [answers, hrest]
      cases e with
      | get q =>
          have hanswer : (src.get cache q).1 = src.uncached q :=
            h.get_fst (he _ List.mem_cons_self)
          simp only [Source.step, hanswer]
          rfl
      | evict k => rfl
      | insert k b => rfl

end Source
end CachedFetch

import Mathlib.Data.List.Infix
import Mathlib.Logic.Function.Basic

/-!
# Last writer wins, through an encoding of the keys

A store keeps values under encoded keys: writing the key `k` replaces whatever is
stored at `enc k`.  The store is faithful to a sequence of writes if every key reads
back its own last value and no write disturbs another key.  `faithful_iff` says exactly
when an encoding that may not be injective is still faithful to a given sequence: two
keys may share a place only as long as they agree on the value there.

## Main definitions

* `put`, `run` — one write and a sequence of writes.
* `lastValue` — the last value written under a key.
* `ReadsLast`, `NoInterference` — the two halves of faithfulness.
* `Agrees` — the condition on the sequence.
-/

namespace Unix.KeyedStore

universe u v w
variable {K : Type u} {P : Type v} {V : Type w} {enc : K → P} {s : P → Option V}

/-! ## Writing -/

section Writing
variable [DecidableEq P]

/-- Write one value. -/
def put (enc : K → P) (s : P → Option V) (kv : K × V) : P → Option V :=
  Function.update s (enc kv.1) (some kv.2)

/-- Write a sequence of values, first to last. -/
def run (enc : K → P) (s : P → Option V) (kvs : List (K × V)) : P → Option V :=
  kvs.foldl (put enc) s

@[simp] theorem run_nil : run enc s [] = s := rfl
theorem run_concat (kvs : List (K × V)) (kv : K × V) :
    run enc s (kvs ++ [kv]) = put enc (run enc s kvs) kv := by simp [run]
theorem put_self (kv : K × V) : put enc s kv (enc kv.1) = some kv.2 := by simp [put]
theorem put_of_ne {kv : K × V} {p : P} (h : p ≠ enc kv.1) : put enc s kv p = s p := by
  simp [put, h]

/-- No write changes what is stored for another key written before. -/
def NoInterference (enc : K → P) (s : P → Option V) (kvs : List (K × V)) : Prop :=
  ∀ pre kv post, kvs = pre ++ kv :: post → ∀ k ∈ pre.map Prod.fst, k ≠ kv.1 →
    run enc s (pre ++ [kv]) (enc k) = run enc s pre (enc k)

theorem noInterference_append_left {kvs kvs' : List (K × V)}
    (h : NoInterference enc s (kvs ++ kvs')) : NoInterference enc s kvs := by
  intro pre kv post hsplit
  exact h pre kv (post ++ kvs') (by simp [hsplit])

end Writing

/-! ## The last value of a key -/

section Reading
variable [DecidableEq K]

/-- The last value written under a key, if there is one. -/
def lastValue : List (K × V) → K → Option V
  | [], _ => none
  | kv :: kvs, k => (lastValue kvs k).or (if kv.1 = k then some kv.2 else none)

/-- Whenever a key is written after another one at the same place, the values agree. -/
def Agrees (enc : K → P) (kvs : List (K × V)) : Prop :=
  ∀ pre kv post, kvs = pre ++ kv :: post → ∀ k v, lastValue pre k = some v →
    k ≠ kv.1 → enc k = enc kv.1 → v = kv.2

theorem lastValue_append (kvs kvs' : List (K × V)) (k : K) :
    lastValue (kvs ++ kvs') k = (lastValue kvs' k).or (lastValue kvs k) := by
  induction kvs with
  | nil => simp [lastValue]
  | cons kv kvs ih => rw [List.cons_append, lastValue, ih, lastValue, Option.or_assoc]

theorem lastValue_concat_self (kvs : List (K × V)) (kv : K × V) :
    lastValue (kvs ++ [kv]) kv.1 = some kv.2 := by simp [lastValue_append, lastValue]

theorem lastValue_concat_of_ne (kvs : List (K × V)) {kv : K × V} {k : K} (h : k ≠ kv.1) :
    lastValue (kvs ++ [kv]) k = lastValue kvs k := by
  simp [lastValue_append, lastValue, Ne.symm h]

/-- Exactly the keys that were written have a last value. -/
theorem exists_lastValue_iff (kvs : List (K × V)) (k : K) :
    (∃ v, lastValue kvs k = some v) ↔ k ∈ kvs.map Prod.fst := by
  induction kvs with
  | nil => simp [lastValue]
  | cons kv kvs ih =>
    rw [List.map_cons, List.mem_cons, ← ih, lastValue]
    by_cases h : kv.1 = k
    · cases hl : lastValue kvs k <;> simp [h]
    · have h' : k ≠ kv.1 := Ne.symm h
      simp [h, h']

theorem agrees_append_left {kvs kvs' : List (K × V)} (h : Agrees enc (kvs ++ kvs')) :
    Agrees enc kvs := by
  intro pre kv post hsplit
  exact h pre kv (post ++ kvs') (by simp [hsplit])

end Reading

/-! ## Reading one place -/

section Reading
variable [DecidableEq K]

/-- The last value of a key is the value of its last write. -/
theorem lastValue_eq_getLast? (kvs : List (K × V)) (k : K) :
    lastValue kvs k = ((kvs.filter fun kv => kv.1 = k).getLast?).map Prod.snd := by
  induction kvs using List.reverseRecOn with
  | nil => rfl
  | append_singleton kvs kv ih =>
    by_cases h : kv.1 = k
    · subst h
      simp [lastValue_concat_self]
    · rw [lastValue_concat_of_ne kvs (Ne.symm h), ih]
      simp [h]

/-- A last value was written. -/
theorem mem_of_lastValue {kvs : List (K × V)} {k : K} {v : V} (h : lastValue kvs k = some v) :
    (k, v) ∈ kvs := by
  rw [lastValue_eq_getLast?, Option.map_eq_some_iff] at h
  obtain ⟨kv, hlast, rfl⟩ := h
  have hmem := List.mem_filter.mp (List.mem_of_getLast? hlast)
  have hk : kv.1 = k := by simpa using hmem.2
  rw [← hk]
  exact hmem.1

/-- A place that no other key written shares holds the last value of its key, or what was
there before. -/
theorem run_apply [DecidableEq P] {kvs : List (K × V)} {k : K}
    (h : ∀ kv ∈ kvs, enc kv.1 = enc k → kv.1 = k) :
    run enc s kvs (enc k) = (lastValue kvs k).or (s (enc k)) := by
  induction kvs using List.reverseRecOn with
  | nil => rfl
  | append_singleton kvs kv ih =>
    have hrest := ih fun kv' hkv' => h kv' (by simp [hkv'])
    rw [run_concat]
    by_cases hk : kv.1 = k
    · subst hk
      rw [lastValue_concat_self, put_self, Option.some_or]
    · have hne : enc k ≠ enc kv.1 := fun heq => hk (h kv (by simp) heq.symm)
      rw [put_of_ne hne, hrest, lastValue_concat_of_ne kvs (Ne.symm hk)]

/-- Places that are their own keys. -/
theorem run_id_apply (s : K → Option V) (kvs : List (K × V)) (k : K) :
    run id s kvs k = (lastValue kvs k).or (s k) :=
  run_apply (k := k) fun _ _ h => h

end Reading

/-! ## Faithfulness -/

variable [DecidableEq K] [DecidableEq P]

/-- Every key that was written reads back its last value. -/
def ReadsLast (enc : K → P) (s : P → Option V) (kvs : List (K × V)) : Prop :=
  ∀ k v, lastValue kvs k = some v → run enc s kvs (enc k) = some v

/-- The step lemma: one more write keeps the store readable if it agrees with what the
other keys at its place hold. -/
theorem readsLast_concat {kvs : List (K × V)} {kv : K × V} (h : ReadsLast enc s kvs)
    (hagree : ∀ k v, lastValue kvs k = some v → k ≠ kv.1 → enc k = enc kv.1 → v = kv.2) :
    ReadsLast enc s (kvs ++ [kv]) := by
  intro k v hv
  rw [run_concat]
  by_cases hk : k = kv.1
  · subst hk
    rw [lastValue_concat_self] at hv
    rw [put_self, hv]
  · rw [lastValue_concat_of_ne kvs hk] at hv
    by_cases henc : enc k = enc kv.1
    · rw [henc, put_self, hagree k v hv hk henc]
    · rw [put_of_ne henc, h k v hv]

/-- A write that disturbs no other key keeps the store readable. -/
theorem readsLast_concat_of_frame {kvs : List (K × V)} {kv : K × V} (h : ReadsLast enc s kvs)
    (hframe : ∀ k ∈ kvs.map Prod.fst, k ≠ kv.1 →
      run enc s (kvs ++ [kv]) (enc k) = run enc s kvs (enc k)) :
    ReadsLast enc s (kvs ++ [kv]) := by
  intro k v hv
  by_cases hk : k = kv.1
  · subst hk
    rw [lastValue_concat_self] at hv
    rw [run_concat, put_self, hv]
  · rw [lastValue_concat_of_ne kvs hk] at hv
    rw [hframe k ((exists_lastValue_iff kvs k).mp ⟨v, hv⟩) hk, h k v hv]

/-- The run lemma: agreement makes the store readable after every sequence. -/
theorem readsLast_of_agrees {kvs : List (K × V)} (h : Agrees enc kvs) : ReadsLast enc s kvs := by
  induction kvs using List.reverseRecOn with
  | nil => intro k v hv; simp [lastValue] at hv
  | append_singleton kvs kv ih =>
    exact readsLast_concat (ih (agrees_append_left h)) (h kvs kv [] rfl)

theorem readsLast_of_noInterference {kvs : List (K × V)} (h : NoInterference enc s kvs) :
    ReadsLast enc s kvs := by
  induction kvs using List.reverseRecOn with
  | nil => intro k v hv; simp [lastValue] at hv
  | append_singleton kvs kv ih =>
    exact readsLast_concat_of_frame (ih (noInterference_append_left h)) (h kvs kv [] rfl)

/-- **Faithfulness, exactly.** A sequence of writes is read back key by key, without
interference, if and only if keys that share a place agree on the values. -/
theorem faithful_iff (kvs : List (K × V)) :
    ReadsLast enc s kvs ∧ NoInterference enc s kvs ↔ Agrees enc kvs := by
  constructor
  · rintro ⟨-, hni⟩ pre kv post hsplit k v hv hk henc
    have hpre : NoInterference enc s pre := by
      rw [hsplit] at hni; exact noInterference_append_left hni
    have hbefore : run enc s pre (enc k) = some v := readsLast_of_noInterference hpre k v hv
    have hafter := hni pre kv post hsplit k ((exists_lastValue_iff pre k).mp ⟨v, hv⟩) hk
    rw [run_concat, henc, put_self, ← henc, hbefore, Option.some.injEq] at hafter
    exact hafter.symm
  · intro h
    refine ⟨readsLast_of_agrees h, ?_⟩
    intro pre kv post hsplit k hmem hk
    obtain ⟨v, hv⟩ := (exists_lastValue_iff pre k).mpr hmem
    have hpre : ReadsLast enc s pre := by
      rw [hsplit] at h; exact readsLast_of_agrees (agrees_append_left h)
    rw [run_concat]
    by_cases henc : enc k = enc kv.1
    · rw [henc, put_self, ← henc, hpre k v hv, h pre kv post hsplit k v hv hk henc]
    · rw [put_of_ne henc]

end Unix.KeyedStore

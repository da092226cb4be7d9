import FontSubset.Log
import Mathlib.Data.List.Forall2

/-!
# Successful results

What a computation that may fail has done when it succeeds: `bind_eq_ok` takes a sequence of steps
apart, `mapM_eq_ok` does the same for a map over a list, and by `Traced.result_loop` a loop is a
fold. Reported events are passed over by `Traced.result`. Steps over a state are taken apart by
`run_bind_of_ok` and `run_bind_of_error`.
-/

namespace FontSubset

section
variable {ε α β σ : Type}

theorem bind_eq_ok {x : Except ε α} {f : α → Except ε β} {b : β} :
    x >>= f = .ok b ↔ ∃ a, x = .ok a ∧ f a = .ok b := by
  cases x <;> simp [bind, Except.bind]

theorem map_eq_ok {x : Except ε α} {f : α → β} {b : β} :
    x.map f = .ok b ↔ ∃ a, x = .ok a ∧ f a = b := by
  cases x <;> simp [Except.map]

@[simp] theorem pure_eq_ok {a b : α} : (pure a : Except ε α) = .ok b ↔ a = b := by
  simp [pure, Except.pure]

@[simp] theorem ok_bind {a : α} {f : α → Except ε β} : Except.ok a >>= f = f a := rfl

@[simp] theorem error_bind {e : ε} {f : α → Except ε β} :
    (Except.error e : Except ε α) >>= f = .error e := rfl

theorem mapM_eq_ok {f : α → Except ε β} {items : List α} {results : List β} :
    items.mapM f = .ok results ↔ List.Forall₂ (fun a b => f a = .ok b) items results := by
  induction items generalizing results with
  | nil => cases results <;> simp
  | cons a rest ih =>
    simp only [List.mapM_cons, bind_eq_ok, pure_eq_ok]
    constructor
    · rintro ⟨b, first, others, run, rfl⟩
      exact .cons first (ih.1 run)
    · rintro (_ | ⟨first, others⟩)
      exact ⟨_, first, _, ih.2 others, rfl⟩

theorem mapM_eq_some {f : α → Option β} {items : List α} {results : List β} :
    items.mapM f = some results ↔ List.Forall₂ (fun a b => f a = some b) items results := by
  induction items generalizing results with
  | nil => cases results <;> simp
  | cons a rest ih =>
    simp only [List.mapM_cons, Option.bind_eq_bind, Option.bind_eq_some_iff, Option.pure_def,
      Option.some.injEq]
    constructor
    · rintro ⟨b, first, others, run, rfl⟩
      exact .cons first (ih.1 run)
    · rintro (_ | ⟨first, others⟩)
      exact ⟨_, first, _, ih.2 others, rfl⟩

/-- A run of steps that can only lead to one state is a fold. -/
theorem eq_foldl_of_foldlM {step : σ → α → Except ε σ} {next : σ → α → σ} {items : List α}
    {s t : σ} (each : ∀ s a s', step s a = .ok s' → s' = next s a)
    (run : items.foldlM step s = .ok t) : t = items.foldl next s := by
  induction items generalizing s with
  | nil => exact (pure_eq_ok.1 run).symm
  | cons a rest ih =>
    obtain ⟨s', first, run⟩ := bind_eq_ok.1 run
    rw [List.foldl_cons, ← each s a s' first]
    exact ih run

theorem exists_of_mem_left {R : α → β → Prop} {as : List α} {bs : List β} {a : α}
    (each : List.Forall₂ R as bs) (mem : a ∈ as) : ∃ b ∈ bs, R a b := by
  induction each with
  | nil => cases mem
  | cons first _ ih =>
    rcases List.mem_cons.1 mem with rfl | mem
    · exact ⟨_, List.mem_cons_self, first⟩
    · obtain ⟨b, there, related⟩ := ih mem
      exact ⟨b, List.mem_cons_of_mem _ there, related⟩

theorem exists_mapM_eq_ok {f f' : α → Except ε β} {items : List α}
    (each : ∀ a ∈ items, ∃ b, f a = .ok b ∧ f' a = .ok b) :
    ∃ results, items.mapM f = .ok results ∧ items.mapM f' = .ok results := by
  induction items with
  | nil => exact ⟨[], rfl, rfl⟩
  | cons a rest ih =>
    obtain ⟨b, here, here'⟩ := each a List.mem_cons_self
    obtain ⟨results, others, others'⟩ := ih fun a mem => each a (List.mem_cons_of_mem _ mem)
    exact ⟨b :: results, by simp [here, others], by simp [here', others']⟩

/-! ## Options that correspond -/

theorem rel_none_left {R : α → β → Prop} {b : Option β} : Option.Rel R none b ↔ b = none := by
  cases b <;> simp [Option.rel_none_none, Option.not_rel_none_some]

theorem rel_some_left {R : α → β → Prop} {a : α} {b : Option β} :
    Option.Rel R (some a) b ↔ ∃ b', b = some b' ∧ R a b' := by
  cases b <;> simp

theorem rel_map_left {R : β → σ → Prop} {f : α → β} {a : Option α} {b : Option σ} :
    Option.Rel R (a.map f) b ↔ Option.Rel (fun a b => R (f a) b) a b := by
  cases a <;> cases b <;> simp

theorem rel_comp {R : α → β → Prop} {S : β → σ → Prop} {a : Option α} {b : Option β}
    {c : Option σ} (first : Option.Rel R a b) (second : Option.Rel S b c) :
    Option.Rel (fun a c => ∃ b, R a b ∧ S b c) a c := by
  cases first with
  | none => exact rel_none_left.1 second ▸ .none
  | some related =>
    obtain ⟨_, rfl, next⟩ := rel_some_left.1 second
    exact .some ⟨_, related, next⟩

end

section
variable {ε σ α β : Type} {x : ExceptT ε (StateM σ) α} {s s' : σ}

theorem run_bind_of_ok {a : α} (ran : x.run.run s = (.ok a, s'))
    (f : α → ExceptT ε (StateM σ) β) : (x >>= f).run.run s = (f a).run.run s' := by
  rw [ExceptT.run_bind, StateT.run_bind, ran]
  rfl

theorem run_bind_of_error {e : ε} (ran : x.run.run s = (.error e, s'))
    (f : α → ExceptT ε (StateM σ) β) : (x >>= f).run.run s = (.error e, s') := by
  rw [ExceptT.run_bind, StateT.run_bind, ran]
  rfl

end

namespace Logged

@[simp] theorem value_map {α β : Type} (f : α → β) (x : Logged α) :
    (f <$> x).value = f x.value := rfl

theorem value_mapM {α β : Type} (f : α → Logged β) (items : List α) :
    (items.mapM f).value = items.map fun a => (f a).value := by
  induction items with
  | nil => rfl
  | cons a rest ih => simp [List.mapM_cons, ih]

end Logged

namespace Traced

@[simp] theorem result_ofLogged {α : Type} (x : Logged α) : (ofLogged x).result = .ok x.value := rfl

theorem result_mapM {α β : Type} (f : α → Traced β) (items : List α) :
    (items.mapM f).result = items.mapM fun a => (f a).result := by
  induction items with
  | nil => rfl
  | cons a rest ih => simp only [List.mapM_cons, result_bind, result_pure, ih]; rfl

theorem result_loop {σ : Type} (count : Nat) (s : σ) (step : σ → Nat → Traced σ) :
    (loop count s step).result = (List.range count).foldlM (fun s i => (step s i).result) s := by
  suffices go : ∀ seen next, (loop.go step s seen next count).result =
      (List.range' next count).foldlM (fun s i => (step s i).result) s by
    rw [List.range_eq_range']
    exact go [] 0
  induction count generalizing s with
  | zero => exact fun _ _ => rfl
  | succ left ih =>
    intro seen next
    rw [loop.go, List.range'_succ, List.foldlM_cons]
    cases first : step s next with
    | mk value events =>
      cases value with
      | error e => rfl
      | ok s' => exact ih s' _ _

/-- A loop succeeds if each step does, and what the steps keep holds at the end. -/
theorem exists_loop_eq_ok {σ : Type} {step : σ → Nat → Traced σ} {count : Nat} {s : σ}
    (P : σ → Prop) (start : P s)
    (keep : ∀ s, ∀ i < count, P s → ∃ s', (step s i).result = .ok s' ∧ P s') :
    ∃ t, (loop count s step).result = .ok t ∧ P t := by
  suffices go : ∀ left seen next, next + left = count → ∀ s, P s →
      ∃ t, (loop.go step s seen next left).result = .ok t ∧ P t from
    go count [] 0 (Nat.zero_add count) s start
  intro left
  induction left with
  | zero => exact fun seen next _ s holds => ⟨s, rfl, holds⟩
  | succ left ih =>
    intro seen next total s holds
    obtain ⟨s', first, holds'⟩ := keep s next (by omega) holds
    rw [loop.go]
    cases ran : step s next with
    | mk value events =>
      rw [ran] at first
      cases first
      exact ih _ (next + 1) (by omega) s' holds'

@[simp] theorem result_map {α β : Type} (f : α → β) (x : Traced α) :
    (f <$> x).result = x.result.map f := by
  obtain ⟨⟨_ | _⟩, _⟩ := x <;> rfl

end Traced

end FontSubset

import FontSubset.Event

/-!
# Computations that report

`Logged α` is a value with the events reported on the way to it, and `Traced α` may fail as well;
what was reported before a failure is kept. Reporting never changes a result:
`Traced.result` commutes with `bind`, so a statement about results passes over every `report`.
-/

namespace FontSubset

/-- A value and the events reported on the way to it, in order. -/
structure Logged (α : Type) where
  value : α
  events : List Event

namespace Logged

instance : Monad Logged where
  pure a := ⟨a, []⟩
  bind x f := let y := f x.value; ⟨y.value, x.events ++ y.events⟩

instance : LawfulMonad Logged := LawfulMonad.mk' _
  (fun x => by cases x; simp [Functor.map])
  (fun a f => by simp [bind, pure])
  (fun x f g => by simp [bind])

def report (event : Event) : Logged Unit :=
  ⟨(), [event]⟩

@[simp] theorem value_pure (a : α) : (pure a : Logged α).value = a := rfl

@[simp] theorem value_bind (x : Logged α) (f : α → Logged β) :
    (x >>= f).value = (f x.value).value := rfl

end Logged

/-- A computation that reports and may fail. -/
abbrev Traced := ExceptT FontError Logged

namespace Traced

def mk (result : Except FontError α) (events : List Event) : Traced α :=
  ExceptT.mk ⟨result, events⟩

/-- What came out, without what was reported. -/
def result (x : Traced α) : Except FontError α :=
  x.run.value

def events (x : Traced α) : List Event :=
  x.run.events

def report (event : Event) : Traced Unit :=
  .mk (.ok ()) [event]

def reportAll (events : List Event) : Traced Unit :=
  .mk (.ok ()) events

def ofLogged (x : Logged α) : Traced α :=
  .mk (.ok x.value) x.events

instance : MonadLift (Except FontError) Traced :=
  ⟨fun x => .mk x []⟩

@[simp] theorem result_pure (a : α) : (pure a : Traced α).result = .ok a := rfl

@[simp] theorem result_throw (e : FontError) : (throw e : Traced α).result = .error e := rfl

@[simp] theorem result_report (event : Event) : (report event).result = .ok () := rfl

@[simp] theorem result_reportAll (events : List Event) :
    (reportAll events).result = .ok () := rfl

@[simp] theorem result_lift (x : Except FontError α) : (liftM x : Traced α).result = x := rfl

@[simp] theorem result_bind (x : Traced α) (f : α → Traced β) :
    (x >>= f).result = x.result >>= fun a => (f a).result := by
  obtain ⟨⟨_ | _⟩, _⟩ := x <;> rfl

/-- `step` on each item in turn. Events are collected backwards, so that the stack does not grow
with the number of items. -/
def foldl.go (step : σ → α → Traced σ) (s : σ) (seen : List Event) : List α → Traced σ
  | [] => .mk (.ok s) seen.reverse
  | a :: rest =>
    match step s a with
    | ⟨.ok s', events⟩ => go step s' (events.reverse ++ seen) rest
    | ⟨.error e, events⟩ => .mk (.error e) (events.reverse ++ seen).reverse

/-- `step` on each item in turn, up to the first failure. -/
def foldl (step : σ → α → Traced σ) (s : σ) (items : List α) : Traced σ :=
  foldl.go step s [] items

theorem result_foldl (step : σ → α → Traced σ) (s : σ) (items : List α) :
    (foldl step s items).result = items.foldlM (fun s a => (step s a).result) s := by
  suffices h : ∀ seen, (foldl.go step s seen items).result =
      items.foldlM (fun s a => (step s a).result) s from h []
  induction items generalizing s with
  | nil => intro seen; rfl
  | cons a rest ih =>
    intro seen
    rw [foldl.go, List.foldlM_cons]
    cases h : step s a with
    | mk value events =>
      cases value with
      | error e => rfl
      | ok s' => exact ih s' _

/-- What `f` makes of each item in turn, all in one list. -/
def collect (f : α → Traced (List β)) (items : List α) : Traced (List β) := do
  let parts ← foldl (fun parts a => do return (← f a) :: parts) [] items
  return parts.reverse.flatten

theorem result_collect (f : α → Traced (List β)) (items : List α) :
    (collect f items).result = (items.mapM fun a => (f a).result).map List.flatten := by
  suffices h : ∀ parts : List (List β),
      (foldl (fun parts a => do return (← f a) :: parts) parts items).result =
        (items.mapM fun a => (f a).result).map (·.reverse ++ parts) by
    rw [collect, result_bind, h []]
    cases items.mapM fun a => (f a).result <;> simp [bind, Except.bind, Except.map]
  intro parts
  rw [result_foldl]
  simp only [result_bind, result_pure]
  induction items generalizing parts with
  | nil => rfl
  | cons a rest ih =>
    rw [List.foldlM_cons, List.mapM_cons]
    cases (f a).result with
    | error e => rfl
    | ok b =>
      refine (ih (b :: parts)).trans ?_
      cases rest.mapM fun a => (f a).result <;>
        simp [Except.map, bind, Except.bind, pure, Except.pure]

/-- `step` with the numbers below `count` in turn, up to the first failure. Nothing is done for
the numbers after it. -/
def loop.go (step : σ → Nat → Traced σ) (s : σ) (seen : List Event) (next : Nat) :
    Nat → Traced σ
  | 0 => .mk (.ok s) seen.reverse
  | left + 1 =>
    match step s next with
    | ⟨.ok s', events⟩ => go step s' (events.reverse ++ seen) (next + 1) left
    | ⟨.error e, events⟩ => .mk (.error e) (events.reverse ++ seen).reverse

def loop (count : Nat) (s : σ) (step : σ → Nat → Traced σ) : Traced σ :=
  loop.go step s [] 0 count

end Traced

end FontSubset

import GraphQL.Execution.Executor
import Mathlib.Data.List.Forall2
import Mathlib.Data.List.Perm.Subperm

/-!
# Evaluations

What evaluating a part of a request comes to: a result together with the errors that were reported
and the resolvers that were called on the way, a fault, or nothing yet, where the evaluation was
limited to a depth that did not suffice. Parts that are evaluated one after another end with the
first of them that does not come to a result. An evaluation never looks at a result tree.
-/

namespace GraphQL

/-- The call of a resolver: where, and for which field of which type. -/
structure Call where
  path : Path
  parentType : String
  fieldName : String
  deriving DecidableEq

/-- What an evaluation leaves behind beside its result. -/
structure Log where
  errors : List ResponseError := []
  calls : List Call := []

namespace Log

instance : Append Log where
  append a b := ⟨a.errors ++ b.errors, a.calls ++ b.calls⟩

@[simp] theorem errors_append (a b : Log) : (a ++ b).errors = a.errors ++ b.errors := rfl
@[simp] theorem calls_append (a b : Log) : (a ++ b).calls = a.calls ++ b.calls := rfl

@[ext] theorem ext {a b : Log} (he : a.errors = b.errors) (hc : a.calls = b.calls) : a = b := by
  cases a
  cases b
  simp_all

@[simp] theorem empty_append (a : Log) : ({} : Log) ++ a = a := by ext1 <;> simp
@[simp] theorem append_empty (a : Log) : a ++ ({} : Log) = a := by ext1 <;> simp

theorem append_assoc (a b c : Log) : a ++ b ++ c = a ++ (b ++ c) := by ext1 <;> simp

/-- Two logs with the same errors and calls, each in some order. -/
structure Perm (a b : Log) : Prop where
  errors : a.errors.Perm b.errors
  calls : a.calls.Perm b.calls

/-- A log whose errors and calls are among those of another, counted with repetition. -/
structure Within (a b : Log) : Prop where
  errors : a.errors.Subperm b.errors
  calls : a.calls.Subperm b.calls

theorem Perm.refl (a : Log) : a.Perm a := ⟨.refl _, .refl _⟩

theorem Perm.symm {a b : Log} (h : a.Perm b) : b.Perm a := ⟨h.errors.symm, h.calls.symm⟩

theorem Perm.trans {a b c : Log} (h : a.Perm b) (k : b.Perm c) : a.Perm c :=
  ⟨h.errors.trans k.errors, h.calls.trans k.calls⟩

theorem Perm.append {a b c d : Log} (h : a.Perm b) (k : c.Perm d) : (a ++ c).Perm (b ++ d) :=
  ⟨h.errors.append k.errors, h.calls.append k.calls⟩

theorem perm_append_comm (a b : Log) : (a ++ b).Perm (b ++ a) :=
  ⟨List.perm_append_comm, List.perm_append_comm⟩

theorem Perm.within {a b : Log} (h : a.Perm b) : a.Within b := ⟨h.errors.subperm, h.calls.subperm⟩

theorem Within.trans {a b c : Log} (h : a.Within b) (k : b.Within c) : a.Within c :=
  ⟨h.errors.trans k.errors, h.calls.trans k.calls⟩

theorem Within.append {a b c d : Log} (h : a.Within b) (k : c.Within d) :
    (a ++ c).Within (b ++ d) :=
  ⟨h.errors.append k.errors, h.calls.append k.calls⟩

theorem empty_within (a : Log) : ({} : Log).Within a := ⟨List.nil_subperm, List.nil_subperm⟩

theorem within_append (a b : Log) : b.Within (a ++ b) := by
  simpa using (empty_within a).append (Perm.refl b).within

end Log

/-- What an evaluation comes to. -/
inductive Evaluation (α : Type) where
  /-- It goes deeper than it was allowed to. -/
  | unfinished
  | fault (raised : Fault)
  | done (result : α) (log : Log)

namespace Evaluation

variable {α β γ : Type}

/-- An evaluation before which something has been reported and called. -/
def after (log : Log) : Evaluation α → Evaluation α
  | unfinished => unfinished
  | fault raised => fault raised
  | done result later => done result (log ++ later)

def bind (x : Evaluation α) (next : α → Evaluation β) : Evaluation β :=
  match x with
  | unfinished => unfinished
  | fault raised => fault raised
  | done result log => (next result).after log

def map (f : α → β) : Evaluation α → Evaluation β
  | unfinished => unfinished
  | fault raised => fault raised
  | done result log => done (f result) log

/-- The results of evaluations that are made one after another. -/
def all : List (Evaluation α) → Evaluation (List α)
  | [] => done [] {}
  | x :: rest => x.bind fun result => (all rest).map (result :: ·)

@[simp] theorem after_done (log later : Log) (a : α) :
    (done a later).after log = done a (log ++ later) := rfl
@[simp] theorem after_fault (log : Log) (raised : Fault) :
    (fault raised : Evaluation α).after log = fault raised := rfl
@[simp] theorem after_unfinished (log : Log) :
    (unfinished : Evaluation α).after log = unfinished := rfl
@[simp] theorem bind_done (a : α) (log : Log) (next : α → Evaluation β) :
    (done a log).bind next = (next a).after log := rfl
@[simp] theorem bind_fault (raised : Fault) (next : α → Evaluation β) :
    (fault raised).bind next = fault raised := rfl
@[simp] theorem bind_unfinished (next : α → Evaluation β) : unfinished.bind next = unfinished := rfl
@[simp] theorem map_done (f : α → β) (a : α) (log : Log) :
    (done a log).map f = done (f a) log := rfl
@[simp] theorem map_fault (f : α → β) (raised : Fault) :
    (fault raised : Evaluation α).map f = fault raised := rfl
@[simp] theorem map_unfinished (f : α → β) :
    (unfinished : Evaluation α).map f = unfinished := rfl
@[simp] theorem all_nil : all ([] : List (Evaluation α)) = done [] {} := rfl
theorem all_cons (x : Evaluation α) (rest : List (Evaluation α)) :
    all (x :: rest) = x.bind fun result => (all rest).map (result :: ·) := rfl

@[simp] theorem after_empty (x : Evaluation α) : x.after {} = x := by cases x <;> simp

theorem after_after (x : Evaluation α) (first second : Log) :
    (x.after second).after first = x.after (first ++ second) := by
  cases x <;> simp [Log.append_assoc]

theorem after_map (f : α → β) (x : Evaluation α) (log : Log) :
    (x.map f).after log = (x.after log).map f := by cases x <;> simp

theorem after_bind (x : Evaluation α) (next : α → Evaluation β) (log : Log) :
    (x.bind next).after log = (x.after log).bind next := by
  cases x <;> simp [after_after]

theorem map_map (x : Evaluation α) (f : α → β) (g : β → γ) :
    (x.map f).map g = x.map fun a => g (f a) := by cases x <;> simp

@[simp] theorem map_id (x : Evaluation α) : x.map (fun a => a) = x := by cases x <;> simp

@[simp] theorem bind_pure (x : Evaluation α) : (x.bind fun a => done a {}) = x := by
  cases x <;> simp

theorem map_bind (x : Evaluation α) (next : α → Evaluation β) (g : β → γ) :
    (x.bind next).map g = x.bind fun a => (next a).map g := by
  cases x <;> simp [after_map]

theorem bind_map (x : Evaluation α) (f : α → β) (next : β → Evaluation γ) :
    (x.map f).bind next = x.bind fun a => next (f a) := by cases x <;> simp

theorem bind_assoc (x : Evaluation α) (f : α → Evaluation β) (g : β → Evaluation γ) :
    (x.bind f).bind g = x.bind fun a => (f a).bind g := by
  cases x <;> simp [after_bind]

theorem bind_eq_done {x : Evaluation α} {next : α → Evaluation β} {b : β} {log : Log}
    (h : x.bind next = done b log) :
    ∃ a first second, x = done a first ∧ next a = done b second ∧ log = first ++ second := by
  cases x with
  | unfinished => cases h
  | fault raised => cases h
  | done a first =>
    rw [bind_done] at h
    cases hn : next a with
    | unfinished => rw [hn] at h; cases h
    | fault raised => rw [hn] at h; cases h
    | done c second =>
      rw [hn, after_done] at h
      obtain ⟨rfl, rfl⟩ := done.inj h
      exact ⟨a, first, second, rfl, hn, rfl⟩

theorem map_eq_done {x : Evaluation α} {f : α → β} {b : β} {log : Log}
    (h : x.map f = done b log) : ∃ a, x = done a log ∧ f a = b := by
  cases x with
  | unfinished => cases h
  | fault raised => cases h
  | done a first =>
    obtain ⟨rfl, rfl⟩ := done.inj h
    exact ⟨a, rfl, rfl⟩

theorem after_eq_done {x : Evaluation α} {a : α} {log later : Log}
    (h : x.after log = done a later) :
    ∃ own, x = done a own ∧ later = log ++ own := by
  cases x with
  | unfinished => cases h
  | fault raised => cases h
  | done b own =>
    obtain ⟨rfl, rfl⟩ := done.inj h
    exact ⟨own, rfl, rfl⟩

theorem after_finished {x : Evaluation α} {log : Log} (h : x ≠ unfinished) :
    x.after log ≠ unfinished := by
  cases x with
  | unfinished => exact absurd rfl h
  | fault raised => exact fun he => nomatch he
  | done a own => exact fun he => nomatch he

theorem map_finished {x : Evaluation α} {f : α → β} (h : x ≠ unfinished) :
    x.map f ≠ unfinished := by
  cases x with
  | unfinished => exact absurd rfl h
  | fault raised => exact fun he => nomatch he
  | done a own => exact fun he => nomatch he

theorem bind_finished {x : Evaluation α} {next : α → Evaluation β} (h : x ≠ unfinished)
    (hn : ∀ a log, x = done a log → next a ≠ unfinished) : x.bind next ≠ unfinished := by
  cases x with
  | unfinished => exact absurd rfl h
  | fault raised => exact fun he => nomatch he
  | done a own => exact after_finished (hn a own rfl)

theorem all_append (xs ys : List (Evaluation α)) :
    all (xs ++ ys) = (all xs).bind fun as => (all ys).map (as ++ ·) := by
  induction xs with
  | nil => simp
  | cons x xs ih =>
    simp only [List.cons_append, all_cons, ih, bind_assoc, bind_map, map_bind, map_map]

theorem all_eq_done_append {xs ys : List (Evaluation α)} {results : List α} {log : Log}
    (h : all (xs ++ ys) = done results log) :
    ∃ as bs first second, all xs = done as first ∧ all ys = done bs second ∧
      results = as ++ bs ∧ log = first ++ second := by
  rw [all_append] at h
  obtain ⟨as, first, second, hx, hrest, rfl⟩ := bind_eq_done h
  obtain ⟨bs, hy, rfl⟩ := map_eq_done hrest
  exact ⟨as, bs, first, second, hx, hy, rfl, rfl⟩

theorem all_eq_done_cons {x : Evaluation α} {rest : List (Evaluation α)} {results : List α}
    {log : Log} (h : all (x :: rest) = done results log) :
    ∃ a as first second, x = done a first ∧ all rest = done as second ∧
      results = a :: as ∧ log = first ++ second := by
  obtain ⟨a, first, second, hx, hrest, rfl⟩ := bind_eq_done h
  obtain ⟨as, has, rfl⟩ := map_eq_done hrest
  exact ⟨a, as, first, second, hx, has, rfl, rfl⟩

theorem all_eq_done {xs : List (Evaluation α)} {results : List α} {log : Log}
    (h : all xs = done results log) :
    List.Forall₂ (fun x a => ∃ own, x = done a own) xs results := by
  induction xs generalizing results log with
  | nil =>
    obtain ⟨rfl, rfl⟩ := done.inj h
    exact .nil
  | cons x xs ih =>
    obtain ⟨a, as, first, second, hx, has, rfl, rfl⟩ := all_eq_done_cons h
    exact .cons ⟨first, hx⟩ (ih has)

theorem all_done_of_mem {xs : List (Evaluation α)} {results : List α} {log : Log}
    (h : all xs = done results log) {x : Evaluation α} (hm : x ∈ xs) :
    ∃ a ∈ results, ∃ own, x = done a own := by
  induction xs generalizing results log with
  | nil => exact nomatch hm
  | cons first rest ih =>
    obtain ⟨a, as, own, _, hfirst, hrest, rfl, -⟩ := all_eq_done_cons h
    rcases List.mem_cons.mp hm with rfl | hm
    · exact ⟨a, List.mem_cons_self, own, hfirst⟩
    · obtain ⟨b, hb, hx⟩ := ih hrest hm
      exact ⟨b, List.mem_cons_of_mem _ hb, hx⟩

theorem all_mem_done {xs : List (Evaluation α)} {results : List α} {log : Log}
    (h : all xs = done results log) {a : α} (hm : a ∈ results) :
    ∃ x ∈ xs, ∃ own, x = done a own := by
  induction xs generalizing results log with
  | nil =>
    obtain ⟨rfl, -⟩ := done.inj h
    exact nomatch hm
  | cons first rest ih =>
    obtain ⟨_, as, own, _, hfirst, hrest, rfl, -⟩ := all_eq_done_cons h
    rcases List.mem_cons.mp hm with rfl | hm
    · exact ⟨first, List.mem_cons_self, own, hfirst⟩
    · obtain ⟨x, hx, hdone⟩ := ih hrest hm
      exact ⟨x, List.mem_cons_of_mem _ hx, hdone⟩

theorem all_finished {xs : List (Evaluation α)} (h : ∀ x ∈ xs, x ≠ unfinished) :
    all xs ≠ unfinished := by
  induction xs with
  | nil => exact fun he => nomatch he
  | cons x rest ih =>
    refine bind_finished (h x List.mem_cons_self) fun a _ _ => map_finished ?_
    exact ih fun other ho => h other (List.mem_cons_of_mem _ ho)

theorem all_length {xs : List (Evaluation α)} {results : List α} {log : Log}
    (h : all xs = done results log) : results.length = xs.length :=
  (all_eq_done h).length_eq.symm

/-- Two evaluations that come to related results, with the same errors and calls in some order, or
end in the same fault. -/
inductive Agrees (R : α → β → Prop) : Evaluation α → Evaluation β → Prop where
  | unfinished : Agrees R unfinished unfinished
  | fault (raised : Fault) : Agrees R (fault raised) (fault raised)
  | done {a : α} {b : β} {log other : Log} (hr : R a b) (hl : log.Perm other) :
      Agrees R (done a log) (done b other)

section Agrees

variable {δ : Type} {R : α → β → Prop} {S : γ → δ → Prop} {x : Evaluation α} {y : Evaluation β}

theorem Agrees.refl (x : Evaluation α) : x.Agrees Eq x := by
  cases x with
  | unfinished => exact .unfinished
  | fault raised => exact .fault raised
  | done result log => exact .done rfl (.refl log)

theorem Agrees.symm (h : x.Agrees R y) : y.Agrees (fun b a => R a b) x := by
  cases h with
  | unfinished => exact .unfinished
  | fault raised => exact .fault raised
  | done hr hl => exact .done hr hl.symm

theorem Agrees.trans {z : Evaluation γ} {T : β → γ → Prop} {U : α → γ → Prop} (h : x.Agrees R y)
    (k : y.Agrees T z) (hu : ∀ a b c, R a b → T b c → U a c) : x.Agrees U z := by
  cases h with
  | unfinished =>
    cases k with
    | unfinished => exact .unfinished
  | fault raised =>
    cases k with
    | fault _ => exact .fault raised
  | done hr hl =>
    cases k with
    | done ht hk => exact .done (hu _ _ _ hr ht) (hl.trans hk)

theorem Agrees.symm_eq {x y : Evaluation α} (h : x.Agrees Eq y) : y.Agrees Eq x := by
  cases h with
  | unfinished => exact .unfinished
  | fault raised => exact .fault raised
  | done hr hl => exact .done hr.symm hl.symm

theorem Agrees.trans_eq {x y z : Evaluation α} (h : x.Agrees Eq y) (k : y.Agrees Eq z) :
    x.Agrees Eq z :=
  h.trans k fun _ _ _ he hk => he.trans hk

theorem Agrees.weaken {T : α → β → Prop} (h : x.Agrees R y) (ht : ∀ a b, R a b → T a b) :
    x.Agrees T y := by
  cases h with
  | unfinished => exact .unfinished
  | fault raised => exact .fault raised
  | done hr hl => exact .done (ht _ _ hr) hl

/-- What holds of the result of the first evaluation may be used of the two results. -/
theorem Agrees.refine {T : α → β → Prop} (h : x.Agrees R y)
    (ht : ∀ a b log, x = .done a log → R a b → T a b) : x.Agrees T y := by
  cases h with
  | unfinished => exact .unfinished
  | fault raised => exact .fault raised
  | done hr hl => exact .done (ht _ _ _ rfl hr) hl

theorem Agrees.of_eq {R : α → α → Prop} {x y : Evaluation α} (h : x = y) (hr : ∀ a, R a a) :
    x.Agrees R y := by
  subst h
  exact (Agrees.refl x).weaken fun a b he => he ▸ hr a

theorem Agrees.finished (h : x.Agrees R y) (hx : x ≠ .unfinished) : y ≠ .unfinished := by
  cases h with
  | unfinished => exact absurd rfl hx
  | fault raised => exact fun he => nomatch he
  | done _ _ => exact fun he => nomatch he

theorem Agrees.after (h : x.Agrees R y) {log other : Log} (hl : log.Perm other) :
    (x.after log).Agrees R (y.after other) := by
  cases h with
  | unfinished => exact .unfinished
  | fault raised => exact .fault raised
  | done hr h => exact .done hr (hl.append h)

theorem Agrees.bind {f : α → Evaluation γ} {g : β → Evaluation δ} (h : x.Agrees R y)
    (k : ∀ a b, R a b → (f a).Agrees S (g b)) : (x.bind f).Agrees S (y.bind g) := by
  cases h with
  | unfinished => exact .unfinished
  | fault raised => exact .fault raised
  | done hr h => exact (k _ _ hr).after h

theorem Agrees.map {f : α → γ} {g : β → δ} (h : x.Agrees R y) (k : ∀ a b, R a b → S (f a) (g b)) :
    (x.map f).Agrees S (y.map g) := by
  cases h with
  | unfinished => exact .unfinished
  | fault raised => exact .fault raised
  | done hr h => exact .done (k _ _ hr) h

theorem agrees_all {xs : List (Evaluation α)} {ys : List (Evaluation β)}
    (h : List.Forall₂ (Agrees R) xs ys) : (all xs).Agrees (List.Forall₂ R) (all ys) := by
  induction h with
  | nil => exact .done .nil (.refl _)
  | cons hxy _ ih => exact hxy.bind fun a b hr => ih.map fun as bs hrs => .cons hr hrs

/-- One evaluation read in two ways. -/
theorem agrees_map_map {f : α → γ} {g : α → δ} (x : Evaluation α)
    (h : ∀ a log, x = done a log → S (f a) (g a)) : (x.map f).Agrees S (x.map g) := by
  cases x with
  | unfinished => exact .unfinished
  | fault raised => exact .fault raised
  | done a log => exact .done (h a log rfl) (.refl log)

/-- What happens before an evaluation may as well happen in the course of it. -/
theorem after_bind_agrees {f : α → Evaluation γ} (x : Evaluation α) (log : Log) :
    ((x.bind f).after log).Agrees Eq (x.bind fun a => (f a).after log) := by
  cases x with
  | unfinished => exact .unfinished
  | fault raised => exact .fault raised
  | done a first =>
    simp only [bind_done, after_after]
    exact (Agrees.refl (f a)).after (Log.perm_append_comm log first)

/-- What happens before one of several evaluations may as well happen before all of them. -/
theorem all_after_agrees (xs : List (Evaluation α)) (y : Evaluation α) (ys : List (Evaluation α))
    (log : Log) :
    (all (xs ++ y.after log :: ys)).Agrees Eq ((all (xs ++ y :: ys)).after log) := by
  simp only [all_append, all_cons, ← after_bind, ← after_map]
  exact (after_bind_agrees (all xs) log).symm_eq

/-- `Settles R x y`: where `x` has finished, `y` has too, and agrees with it. -/
def Settles (R : α → β → Prop) (x : Evaluation α) (y : Evaluation β) : Prop :=
  x ≠ .unfinished → x.Agrees R y

theorem Agrees.settles (h : x.Agrees R y) : x.Settles R y := fun _ => h

theorem Settles.refl (x : Evaluation α) : x.Settles Eq x := (Agrees.refl x).settles

theorem Settles.trans {z : Evaluation γ} {T : β → γ → Prop} {U : α → γ → Prop}
    (h : x.Settles R y) (k : y.Settles T z) (hu : ∀ a b c, R a b → T b c → U a c) :
    x.Settles U z := by
  intro hx
  have hy := h hx
  exact hy.trans (k (hy.finished hx)) hu

theorem Settles.trans_eq {x y z : Evaluation α} (h : x.Settles Eq y) (k : y.Settles Eq z) :
    x.Settles Eq z :=
  h.trans k fun _ _ _ he hk => he.trans hk

theorem unfinished_settles (y : Evaluation β) : Settles R unfinished y := fun h => absurd rfl h

theorem Settles.after (h : x.Settles R y) {log other : Log} (hl : log.Perm other) :
    (x.after log).Settles R (y.after other) := by
  intro hx
  exact (h fun he => hx (by rw [he]; rfl)).after hl

theorem Settles.map {f : α → γ} {g : β → δ} (h : x.Settles R y)
    (k : ∀ a b, R a b → S (f a) (g b)) : (x.map f).Settles S (y.map g) := by
  intro hx
  exact (h fun he => hx (by rw [he]; rfl)).map k

theorem Settles.bind {f : α → Evaluation γ} {g : β → Evaluation δ} (h : x.Settles R y)
    (k : ∀ a b, R a b → (f a).Settles S (g b)) : (x.bind f).Settles S (y.bind g) := by
  intro hx
  have hxy := h fun he => hx (by rw [he]; rfl)
  cases hxy with
  | unfinished => exact absurd rfl hx
  | fault raised => exact .fault raised
  | @done a b log other hr hl =>
    have hf : f a ≠ .unfinished := fun he => hx (by rw [bind_done, he]; rfl)
    exact (k a b hr hf).after hl

theorem settles_all {xs : List (Evaluation α)} {ys : List (Evaluation β)}
    (h : List.Forall₂ (Settles R) xs ys) : (all xs).Settles (List.Forall₂ R) (all ys) := by
  induction h with
  | nil => exact (Agrees.done .nil (.refl _)).settles
  | cons hxy _ ih => exact hxy.bind fun a b hr => ih.map fun as bs hrs => .cons hr hrs

/-- What holds of the result of the first evaluation may be used of the two results. -/
theorem Settles.strengthen {P : α → Prop} (h : x.Settles R y)
    (hp : ∀ a log, x = .done a log → P a) : x.Settles (fun a b => R a b ∧ P a) y := by
  intro hx
  cases h hx with
  | unfinished => exact .unfinished
  | fault raised => exact .fault raised
  | done hr hl => exact .done ⟨hr, hp _ _ rfl⟩ hl

end Agrees

end Evaluation

end GraphQL

namespace NameResolution

inductive Enumeration (σ α : Type) where
  | done (state : σ)
  | found (answer : α) (rest : Unit → Enumeration σ α)

namespace Enumeration

variable {σ α β : Type}

/-- The answers of one enumeration, then those of another that starts from the final state. -/
def andThen : Enumeration σ α → (σ → Enumeration σ α) → Enumeration σ α
  | done s, next => next s
  | found a rest, next => found a fun u => (rest u).andThen next

def collect : Enumeration σ α → List α × σ
  | done s => ([], s)
  | found a rest =>
    let (answers, s) := (rest ()).collect
    (a :: answers, s)

def toList (e : Enumeration σ α) : List α := e.collect.1

def final (e : Enumeration σ α) : σ := e.collect.2

def take : Nat → Enumeration σ α → List α
  | 0, _ => []
  | _ + 1, done _ => []
  | n + 1, found a rest => a :: (rest ()).take n

def ofList : List α → σ → Enumeration σ α
  | [], s => done s
  | a :: as, s => found a fun _ => ofList as s

def each : List β → (β → σ → Enumeration σ α) → σ → Enumeration σ α
  | [], _, s => done s
  | b :: bs, f, s => (f b s).andThen (each bs f)

@[simp] theorem toList_done {s : σ} : (done s : Enumeration σ α).toList = [] := rfl

@[simp] theorem toList_found {a : α} {rest : Unit → Enumeration σ α} :
    (found a rest).toList = a :: (rest ()).toList := rfl

@[simp] theorem final_done {s : σ} : (done s : Enumeration σ α).final = s := rfl

@[simp] theorem final_found {a : α} {rest : Unit → Enumeration σ α} :
    (found a rest).final = (rest ()).final := rfl

@[simp] theorem toList_andThen {e : Enumeration σ α} {next : σ → Enumeration σ α} :
    (e.andThen next).toList = e.toList ++ (next e.final).toList := by
  induction e with
  | done s => rfl
  | found a rest ih => simp [andThen, ih]

@[simp] theorem final_andThen {e : Enumeration σ α} {next : σ → Enumeration σ α} :
    (e.andThen next).final = (next e.final).final := by
  induction e with
  | done s => rfl
  | found a rest ih => simp [andThen, ih]

@[simp] theorem toList_ofList {l : List α} {s : σ} : (ofList l s).toList = l := by
  induction l with
  | nil => rfl
  | cons a as ih => simp [ofList, ih]

@[simp] theorem final_ofList {l : List α} {s : σ} : (ofList l s).final = s := by
  induction l with
  | nil => rfl
  | cons a as ih => simp [ofList, ih]

@[simp] theorem done_andThen {s : σ} {next : σ → Enumeration σ α} : (done s).andThen next = next s :=
  rfl

@[simp] theorem andThen_done {e : Enumeration σ α} : e.andThen done = e := by
  induction e with
  | done s => rfl
  | found a rest ih => simp only [andThen, ih]

theorem andThen_assoc {e : Enumeration σ α} {next next' : σ → Enumeration σ α} :
    (e.andThen next).andThen next' = e.andThen fun s => (next s).andThen next' := by
  induction e with
  | done s => rfl
  | found a rest ih => simp only [andThen, ih]

theorem ofList_append {l l' : List α} {s : σ} :
    ofList (l ++ l') s = (ofList l s).andThen (ofList l') := by
  induction l with
  | nil => rfl
  | cons a as ih => simp only [List.cons_append, ofList, andThen, ih]

/-- What follows a list starts from the state that the list passes on. -/
theorem ofList_andThen_congr {l : List α} {s s' : σ} {next next' : σ → Enumeration σ α}
    (h : next s = next' s') : (ofList l s).andThen next = (ofList l s').andThen next' := by
  induction l with
  | nil => exact h
  | cons a as ih => simp only [ofList, andThen, ih]

section Each

variable {γ : Type} {f : β → σ → Enumeration σ α}

@[simp] theorem each_nil : each [] f = done := rfl

theorem each_cons {b : β} {bs : List β} : each (b :: bs) f = fun s => (f b s).andThen (each bs f) :=
  rfl

theorem each_singleton {b : β} : each [b] f = f b := by
  funext s
  exact andThen_done

theorem each_append {bs bs' : List β} :
    each (bs ++ bs') f = fun s => (each bs f s).andThen (each bs' f) := by
  induction bs with
  | nil => rfl
  | cons b bs ih => simp only [List.cons_append, each_cons, ih, andThen_assoc]

theorem each_map {l : List γ} {g : γ → β} : each (l.map g) f = each l fun c => f (g c) := by
  induction l with
  | nil => rfl
  | cons c cs ih => simp only [List.map_cons, each_cons, ih]

theorem each_flatMap {l : List γ} {g : γ → List β} :
    each (l.flatMap g) f = each l fun c => each (g c) f := by
  induction l with
  | nil => rfl
  | cons c cs ih => simp only [List.flatMap_cons, each_append, each_cons, ih]

end Each

end Enumeration

end NameResolution

import Herald.Call

namespace Herald

/-- An operation that works on a state in place. What it has changed and asked for stays so, also when it ends
at a fault. -/
abbrev Operation (σ α : Type) := ExceptT Fault (StateM (σ × List Call)) α

namespace Operation

variable {σ α β : Type}

def state : Operation σ σ := do
  return (← get).1

def change (f : σ → σ) : Operation σ Unit :=
  modify fun (s, calls) => (f s, calls)

def draw (f : σ → σ × α) : Operation σ α :=
  modifyGet fun (s, calls) =>
    let (s, a) := f s
    (a, s, calls)

def perform (f : σ → σ × List Call) : Operation σ Unit :=
  modify fun (s, calls) =>
    let (s, more) := f s
    (s, calls ++ more)

def orFail (fault : Fault) : Option α → Operation σ α
  | some a => pure a
  | none => throw fault

def exec (op : Operation σ α) (s : σ) (calls : List Call) : Except Fault α × σ × List Call :=
  op.run.run (s, calls)

def on (op : Operation σ α) (s : σ) : Except Fault α × σ × List Call :=
  op.exec s []

section Exec

variable (s : σ) (calls : List Call)

@[simp] theorem exec_pure (a : α) : (pure a : Operation σ α).exec s calls = (.ok a, s, calls) :=
  rfl

@[simp] theorem exec_throw (fault : Fault) : (throw fault : Operation σ α).exec s calls = (.error fault, s, calls) :=
  rfl

@[simp] theorem exec_bind (op : Operation σ α) (next : α → Operation σ β) : (op >>= next).exec s calls =
    match op.exec s calls with
    | (.ok a, s, calls) => (next a).exec s calls
    | (.error fault, s, calls) => (.error fault, s, calls) := by
  rcases h : op.exec s calls with ⟨fault | a, s', calls'⟩ <;>
    simp only [exec] at h ⊢ <;> simp only [ExceptT.run_bind, StateT.run_bind] <;> rw [h] <;> rfl

@[simp] theorem exec_map (f : α → β) (op : Operation σ α) :
    (f <$> op).exec s calls = ((op.exec s calls).1.map f, (op.exec s calls).2) := by
  rw [← bind_pure_comp, exec_bind]
  rcases op.exec s calls with ⟨fault | a, s, calls⟩ <;> rfl

@[simp] theorem exec_state : (state : Operation σ σ).exec s calls = (.ok s, s, calls) :=
  rfl

@[simp] theorem exec_change (f : σ → σ) : (change f).exec s calls = (.ok (), f s, calls) :=
  rfl

@[simp] theorem exec_draw (f : σ → σ × α) : (draw f).exec s calls = (.ok (f s).2, (f s).1, calls) :=
  rfl

@[simp] theorem exec_perform (f : σ → σ × List Call) :
    (perform f).exec s calls = (.ok (), (f s).1, calls ++ (f s).2) :=
  rfl

@[simp] theorem exec_orFail_some (fault : Fault) (a : α) :
    (orFail fault (some a) : Operation σ α).exec s calls = (.ok a, s, calls) :=
  rfl

@[simp] theorem exec_orFail_none (fault : Fault) :
    (orFail fault none : Operation σ α).exec s calls = (.error fault, s, calls) :=
  rfl

end Exec

end Operation

end Herald

import Herald.Proofs.Placing

namespace Herald

namespace Act

def occasion? : Act Listener → Option Session.Occasion
  | .input i => some (.input i)
  | .reload groups => some (.reload groups)
  | .clear => some .clear
  | _ => none

def isMute : Act Listener → Bool
  | .input (.arrival (.notification _ _)) => false
  | _ => true

end Act

namespace Listener

def isQuiet : Listener → Bool
  | .group _ => true
  | .script _ acts => acts.isEmpty

/-- A listener that acts on the client and the groups, but makes no other hear anything. -/
def isMute : Listener → Bool
  | .group _ => true
  | .script _ acts => acts.all Act.isMute

end Listener

namespace Task

def occasion? : Task → Option Session.Occasion
  | .act _ a => a.occasion?
  | _ => none

def delivery? : Task → Option Delivery
  | .hear (.group g) n => g.delivery? n
  | _ => none

def isMute : Task → Bool
  | .hear x _ => x.isMute
  | .act _ a => a.isMute
  | .note _ => true

end Task

namespace Session

section Working

variable {s : Session} {limit : Nat} {task : Task} {tasks : List Task}

def workedOff : Nat → Session → List Task → List Task
  | 0, _, _ => []
  | _ + 1, _, [] => []
  | limit + 1, s, task :: tasks => task :: workedOff limit (s.work task).1 ((s.work task).2 ++ tasks)

theorem workOff_eq_foldl (limit : Nat) (s : Session) (tasks : List Task) :
    workOff limit s tasks = (workedOff limit s tasks).foldl (fun s task => (s.work task).1) s := by
  induction limit generalizing s tasks with
  | zero => rfl
  | succ limit ih =>
    cases tasks with
    | nil => rfl
    | cons task tasks => exact ih _ _

theorem sublist_workedOff (h : (workedOff limit s tasks).length < limit) : tasks.Sublist (workedOff limit s tasks) := by
  induction limit generalizing s tasks with
  | zero => simp at h
  | succ limit ih =>
    cases tasks with
    | nil => exact .slnil
    | cons task tasks =>
      have hrest := ih (Nat.lt_of_succ_lt_succ h)
      exact ((List.sublist_append_right _ _).trans hrest).cons_cons task

theorem workedOff_of_quiet (h : ∀ task ∈ tasks, ∀ s : Session, (s.work task).2 = []) (s : Session)
    (hlimit : tasks.length ≤ limit) : workedOff limit s tasks = tasks := by
  induction tasks generalizing s limit with
  | nil => cases limit <;> rfl
  | cons task tasks ih =>
    cases limit with
    | zero => simp at hlimit
    | succ limit =>
      rw [workedOff, h task List.mem_cons_self, List.nil_append]
      exact congrArg _ (ih (fun t ht => h t (List.mem_cons_of_mem _ ht)) _ (Nat.le_of_succ_le_succ hlimit))

theorem work_mute (h : task.isMute = true) : ∀ t ∈ (s.work task).2, t.isMute = true ∧ t.delivery? = none := by
  rcases task with ⟨_ | ⟨label, acts⟩, n⟩ | ⟨label, a⟩ | note
  · simp [work]
  · intro t ht
    obtain ⟨a, ha, rfl⟩ := List.mem_map.mp ht
    exact ⟨List.all_eq_true.mp h a ha, rfl⟩
  · -- An act that is no notification sets off its own note and nothing else.
    have hnone : (s.perform a).2.2 = [] := by
      cases a with
      | input i =>
        cases i with
        | arrival a =>
          cases a with
          | notification id n => cases h
          | _ => rfl
        | _ => rfl
      | _ => rfl
    simp [work, hnone, Task.isMute, Task.delivery?]
  · simp [work]

theorem filterMap_workedOff (hmute : ∀ task ∈ tasks, task.isMute = true)
    (hlimit : (workedOff limit s tasks).length < limit) :
    (workedOff limit s tasks).filterMap Task.delivery? = tasks.filterMap Task.delivery? := by
  induction limit generalizing s tasks with
  | zero => simp at hlimit
  | succ limit ih =>
    cases tasks with
    | nil => rfl
    | cons task tasks =>
      have hfirst := work_mute (s := s) (hmute task List.mem_cons_self)
      have hrest : ∀ t ∈ (s.work task).2 ++ tasks, t.isMute = true := by
        intro t ht
        obtain ht | ht := List.mem_append.mp ht
        · exact (hfirst t ht).1
        · exact hmute t (List.mem_cons_of_mem _ ht)
      have hnone : (s.work task).2.filterMap Task.delivery? = [] :=
        List.filterMap_eq_nil_iff.mpr fun t ht => (hfirst t ht).2
      rw [workedOff, List.filterMap_cons, ih hrest (Nat.lt_of_succ_lt_succ hlimit), List.filterMap_append, hnone,
        List.nil_append, List.filterMap_cons]

theorem deliveries_work (s : Session) (task : Task) :
    (s.work task).1.deliveries = s.deliveries ++ task.delivery?.toList := by
  rcases task with ⟨_ | _, n⟩ | ⟨label, _ | _ | _ | _ | _⟩ | note <;>
    simp [work, perform, reloadGroups, clearGroups, Task.delivery?]

theorem deliveries_foldl_work (s : Session) (tasks : List Task) :
    (tasks.foldl (fun s task => (s.work task).1) s).deliveries = s.deliveries ++ tasks.filterMap Task.delivery? := by
  induction tasks generalizing s with
  | nil => simp
  | cons task tasks ih =>
    rw [List.foldl_cons, ih, deliveries_work, List.append_assoc, List.filterMap_cons]
    cases task.delivery? <;> rfl

end Working

section Telling

def told (s : Session) (notes : List Note) (deliveries : List Delivery) : Session :=
  { s with notes, deliveries }

theorem follow_told (s : Session) (notes : List Note) (deliveries : List Delivery) (os : List Occasion) :
    (s.told notes deliveries).follow os = (s.follow os).told notes deliveries := by
  induction os generalizing s with
  | nil => rfl
  | cons o os ih =>
    have hmeet : (s.told notes deliveries).meet o = (s.meet o).told notes deliveries := by
      cases o <;> rfl
    rw [follow, hmeet, ih, follow]

theorem follow_append (s : Session) (os os' : List Occasion) : s.follow (os ++ os') = (s.follow os).follow os' := by
  induction os generalizing s with
  | nil => rfl
  | cons o os ih => exact ih _

/-- A session that is reached by occasions, but for its notes and deliveries. -/
def Reaches (s : Session) (os : List Occasion) (s' : Session) : Prop :=
  ∃ notes deliveries, s' = (s.follow os).told notes deliveries

namespace Reaches

variable {s s' s'' : Session} {os os' : List Occasion}

theorem trans (h : s.Reaches os s') (h' : s'.Reaches os' s'') : s.Reaches (os ++ os') s'' := by
  obtain ⟨notes, deliveries, rfl⟩ := h
  obtain ⟨notes', deliveries', rfl⟩ := h'
  refine ⟨notes', deliveries', ?_⟩
  rw [follow_told, follow_append]
  rfl

theorem perform (s : Session) (a : Act Listener) : s.Reaches a.occasion?.toList (s.perform a).1 := by
  cases a <;> exact ⟨s.notes, s.deliveries, rfl⟩

theorem work (s : Session) (task : Task) : s.Reaches task.occasion?.toList (s.work task).1 := by
  rcases task with ⟨_ | _, n⟩ | ⟨label, a⟩ | note
  · exact ⟨_, _, rfl⟩
  · exact ⟨_, _, rfl⟩
  · exact perform s a
  · exact ⟨_, _, rfl⟩

theorem foldl_work (s : Session) (tasks : List Task) : s.Reaches (tasks.filterMap Task.occasion?)
    (tasks.foldl (fun s task => (s.work task).1) s) := by
  induction tasks generalizing s with
  | nil => exact ⟨s.notes, s.deliveries, rfl⟩
  | cons task tasks ih =>
    have htask := (work s task).trans (ih (s.work task).1)
    rw [List.filterMap_cons]
    cases ho : task.occasion? with
    | none => simpa [ho] using htask
    | some o => simpa [ho] using htask

end Reaches

def tasksOf (s : Session) (a : Act Listener) : List Task :=
  workedOff taskLimit (s.perform a).1 (s.perform a).2.2

def enact (s : Session) : List (Act Listener) → Session
  | [] => s
  | a :: as => (s.act a).1.enact as

def occasions (s : Session) : List (Act Listener) → List Occasion
  | [] => []
  | a :: as => a.occasion?.toList ++ (s.tasksOf a).filterMap Task.occasion? ++ (s.act a).1.occasions as

theorem deliveries_act (s : Session) (a : Act Listener) :
    (s.act a).1.deliveries = s.deliveries ++ (s.tasksOf a).filterMap Task.delivery? := by
  have hsame : (s.perform a).1.deliveries = s.deliveries := by
    cases a <;> rfl
  have hact : (s.act a).1 = workOff taskLimit (s.perform a).1 (s.perform a).2.2 := rfl
  rw [hact, workOff_eq_foldl, deliveries_foldl_work, hsame, tasksOf]

theorem reaches_act (s : Session) (a : Act Listener) :
    s.Reaches (a.occasion?.toList ++ (s.tasksOf a).filterMap Task.occasion?) (s.act a).1 := by
  have hwork := Reaches.foldl_work (s.perform a).1 (s.tasksOf a)
  rw [tasksOf, ← workOff_eq_foldl] at hwork
  exact (Reaches.perform s a).trans hwork

/-- A run of acts, whatever their listeners do meanwhile, is a run of occasions. -/
theorem reaches_enact (s : Session) (as : List (Act Listener)) : s.Reaches (s.occasions as) (s.enact as) := by
  induction as generalizing s with
  | nil => exact ⟨s.notes, s.deliveries, rfl⟩
  | cons a as ih => exact (s.reaches_act a).trans (ih _)

end Telling

end Session

end Herald

import MipsLab.Machine.Basic

/-! Contracts of work in place. A contract says what holds when the work is done, and what holds of
the state when it ends in a fault. There is one rule for each way in which work is put together, so
that a proof follows the order in which the work reads, checks and writes. -/
namespace MipsLab.Exec

variable {σ α β : Type}

theorem get_run (s : σ) : (get : Exec σ σ) s = .ok s s := rfl

theorem get_bind (f : σ → Exec σ α) (s : σ) : (get >>= f) s = f s s := rfl

theorem bind_ok {work : Exec σ β} {next : β → Exec σ α} {b : β} {s t : σ}
    (ran : work s = .ok b t) : (work >>= next) s = next b t := by
  simp only [bind, EStateM.bind, ran]

theorem bind_error {work : Exec σ β} {next : β → Exec σ α} {f : Fault} {s t : σ}
    (ran : work s = .error f t) : (work >>= next) s = .error f t := by
  simp only [bind, EStateM.bind, ran]

/-- Work that starts in `s` is done with `done` of its value and its last state, or it faults in a
state with `faulted`. -/
def Meets (work : Exec σ α) (s : σ) (done : α → σ → Prop) (faulted : σ → Prop) : Prop :=
  match work s with
  | .ok a t => done a t
  | .error _ t => faulted t

variable {s : σ} {done : α → σ → Prop} {faulted : σ → Prop}

theorem Meets.of_ok {work : Exec σ α} (kept : work.Meets s done faulted) {a : α} {t : σ}
    (ran : work s = .ok a t) : done a t := by
  simpa only [Meets, ran] using kept

theorem Meets.of_error {work : Exec σ α} (kept : work.Meets s done faulted) {f : Fault} {t : σ}
    (ran : work s = .error f t) : faulted t := by
  simpa only [Meets, ran] using kept

theorem Meets.mono {work : Exec σ α} {later : α → σ → Prop} {spoiled : σ → Prop}
    (kept : work.Meets s done faulted) (weaker : ∀ a t, done a t → later a t)
    (weakerFault : ∀ t, faulted t → spoiled t) : work.Meets s later spoiled := by
  unfold Meets at kept ⊢
  split at kept
  · exact weaker _ _ kept
  · exact weakerFault _ kept

/-- Nothing is asked of the fault, and of the value only what always holds. -/
theorem meets_always {work : Exec σ α} (holds : ∀ a t, done a t) :
    work.Meets s done fun _ => True := by
  unfold Meets
  split
  · next a t _ => exact holds a t
  · trivial

theorem meets_pure {a : α} (holds : done a s) : (pure a : Exec σ α).Meets s done faulted := holds

theorem meets_throw {f : Fault} (holds : faulted s) :
    (throw f : Exec σ α).Meets s done faulted := holds

theorem meets_bind {work : Exec σ β} {next : β → Exec σ α}
    (kept : work.Meets s (fun b t => (next b).Meets t done faulted) faulted) :
    (work >>= next).Meets s done faulted := by
  unfold Meets at kept ⊢
  simp only [bind, EStateM.bind]
  split at kept
  · next b t ran => simpa only [ran] using kept
  · next f t ran => simpa only [ran] using kept

theorem meets_get {done : σ → σ → Prop} (holds : done s s) :
    (get : Exec σ σ).Meets s done faulted := holds

theorem meets_set {done : PUnit → σ → Prop} {t : σ} (holds : done ⟨⟩ t) :
    (set t : Exec σ PUnit).Meets s done faulted := holds

theorem meets_modify {done : PUnit → σ → Prop} {change : σ → σ} (holds : done ⟨⟩ (change s)) :
    (modify change : Exec σ PUnit).Meets s done faulted := holds

theorem meets_require {x : Except Fault α} (fault : faulted s)
    (holds : ∀ a, x = .ok a → done a s) : (require x : Exec σ α).Meets s done faulted := by
  cases x with
  | error f => exact fault
  | ok a => exact holds a rfl

theorem meets_update {done : Unit → σ → Prop} {change : σ → Except Fault σ} (fault : faulted s)
    (holds : ∀ t, change s = .ok t → done () t) : (update change).Meets s done faulted :=
  meets_bind (meets_get (meets_bind (meets_require fault fun t changed =>
    meets_set (holds t changed))))

theorem meets_onlyIf {done : Unit → σ → Prop} {condition : Prop} [Decidable condition]
    {work : Exec σ Unit} (kept : condition → work.Meets s done faulted) (idle : done () s) :
    (onlyIf condition work).Meets s done faulted := by
  unfold onlyIf
  split
  · next holds => exact kept holds
  · exact meets_pure idle

/-- In whatever state it starts, the work is done with such a value or it faults. -/
def Returns (done : α → Prop) (work : Exec σ α) : Prop :=
  ∀ s, work.Meets s (fun a _ => done a) fun _ => True

section Returns

variable {done : α → Prop}

theorem returns_pure {a : α} (holds : done a) : Returns done (pure a : Exec σ α) :=
  fun _ => meets_pure holds

/-- The value is decided at the end, whatever was done before. -/
theorem returns_bind {work : Exec σ β} {next : β → Exec σ α} (last : ∀ b, Returns done (next b)) :
    Returns done (work >>= next) := by
  intro s
  apply meets_bind
  exact meets_always fun b t => last b t

end Returns

/-- Work that is done in a state with `P` whenever it starts in one. -/
def Keeps (P : σ → Prop) (work : Exec σ α) : Prop :=
  ∀ s, P s → work.Meets s (fun _ t => P t) fun _ => True

section Keeps

variable {P : σ → Prop}

theorem keeps_pure (a : α) : Keeps P (pure a : Exec σ α) := fun _ kept => meets_pure kept

theorem keeps_get : Keeps P (get : Exec σ σ) := fun _ kept => meets_get kept

theorem keeps_bind {work : Exec σ β} {next : β → Exec σ α} (first : Keeps P work)
    (later : ∀ b, Keeps P (next b)) : Keeps P (work >>= next) :=
  fun s kept => meets_bind ((first s kept).mono later fun _ _ => trivial)

theorem keeps_modify {change : σ → σ} (kept : ∀ s, P s → P (change s)) :
    Keeps P (modify change : Exec σ PUnit) := fun s holds => meets_modify (kept s holds)

theorem keeps_require (x : Except Fault α) : Keeps P (require x : Exec σ α) :=
  fun _ kept => meets_require trivial fun _ _ => kept

theorem keeps_update {change : σ → Except Fault σ} (kept : ∀ s t, change s = .ok t → P s → P t) :
    Keeps P (update change) :=
  fun s holds => meets_update trivial fun t changed => kept s t changed holds

end Keeps

/-- The outcome of work, with a change to the state that it ends in. -/
def after (change : σ → σ) : EStateM.Result Fault σ α → EStateM.Result Fault σ α
  | .ok a t => .ok a (change t)
  | .error f t => .error f (change t)

/-- Starting after a change to the state, `first` ends as `second` does, up to that change. -/
def Framed (change : σ → σ) (s : σ) (first second : Exec σ α) : Prop :=
  first (change s) = after change (second s)

section Frame

variable {change : σ → σ}

theorem framed_pure (a : α) : Framed change s (pure a) (pure a) := rfl

theorem framed_get {f g : σ → Exec σ α} (framed : Framed change s (f (change s)) (g s)) :
    Framed change s (get >>= f) (get >>= g) := framed

theorem framed_bind {first second : Exec σ β} {f g : β → Exec σ α}
    (framed : Framed change s first second) (next : ∀ b t, Framed change t (f b) (g b)) :
    Framed change s (first >>= f) (second >>= g) := by
  unfold Framed at framed ⊢
  simp only [bind, EStateM.bind, framed]
  cases second s with
  | ok b t => exact next b t
  | error e t => rfl

theorem framed_require (x : Except Fault β) {f g : β → Exec σ α}
    (next : ∀ b, Framed change s (f b) (g b)) :
    Framed change s (require x >>= f) (require x >>= g) := by
  cases x with
  | error e => rfl
  | ok b => exact next b

theorem framed_modify {f g : σ → σ} (framed : f (change s) = change (g s)) :
    Framed change s (modify f : Exec σ PUnit) (modify g) := by
  change EStateM.Result.ok PUnit.unit (f (change s)) = .ok PUnit.unit (change (g s))
  rw [framed]

theorem framed_update {f g : σ → Except Fault σ} (framed : f (change s) = (g s).map change) :
    Framed change s (update f) (update g) := by
  simp only [Framed, update, bind, EStateM.bind, get_run, framed]
  cases g s <;> rfl

theorem framed_onlyIf {condition : Prop} [Decidable condition] {first second : Exec σ Unit}
    (framed : Framed change s first second) :
    Framed change s (onlyIf condition first) (onlyIf condition second) := by
  unfold onlyIf
  split
  · exact framed
  · rfl

end Frame

end MipsLab.Exec

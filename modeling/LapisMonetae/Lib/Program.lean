import LapisMonetae.Lib.Fuel
import Mathlib.Order.Defs.Unbundled

/-!
# Programs that fail or panic

A program over a state returns a value, fails with an error, or panics. A program that fails keeps
the changes it has made to the state; a panic has no outcome at all. The rules below speak about
the outcome of a program and never look into the monad again.
-/

/-- A program over the state `σ` that may fail with an `ε` and may panic. -/
abbrev Program (σ ε : Type) : Type → Type := ExceptT ε (StateT σ Option)

namespace Program

open Option

variable {σ τ ε α β : Type}
variable {p : Program σ ε α} {f : α → Program σ ε β} {q : Program τ ε α} {a : α} {e : ε} {s s' : σ}
  {post post' : Except ε α → σ → Prop} {goal : Except ε β → σ → Prop} {R R' : σ → σ → Prop}
  {c : Prop} [Decidable c] {mid : Except ε α → σ → Prop} {x : Except ε α} {g : σ → σ}

/-- The outcome of a program from the state `s`: its value or its error, and the state it leaves.
A panic has no outcome. -/
def outcome (p : Program σ ε α) (s : σ) : Option (Except ε α × σ) := p.run.run s

/-- The value of an option; it panics when there is none. -/
def unwrap (x : Option α) : Program σ ε α := ExceptT.mk fun s => x.map fun a => (.ok a, s)

/-- An assertion; it panics when it does not hold. -/
def ensure (c : Prop) [Decidable c] : Program σ ε Unit := unwrap (if c then some () else none)

/-- A computation that uses no state. -/
def orFail (x : Except ε α) : Program σ ε α := ExceptT.mk fun s => some (x, s)

/-- A program whose failure is a value. -/
def attempt (p : Program σ ε α) : Program σ ε (Except ε α) :=
  ExceptT.mk fun s => (p.outcome s).map fun o => (.ok o.1, o.2)

/-- A program run on a component of the state. -/
def zoom (get : σ → τ) (set : σ → τ → σ) (p : Program τ ε α) : Program σ ε α :=
  ExceptT.mk fun s => (p.outcome (get s)).map fun o => (o.1, set s o.2)

/-! ## Outcomes -/

@[simp] lemma outcome_pure (a : α) (s : σ) :
    (pure a : Program σ ε α).outcome s = some (.ok a, s) := rfl

@[simp] lemma outcome_get (s : σ) : (get : Program σ ε σ).outcome s = some (.ok s, s) := rfl

@[simp] lemma outcome_set (s s' : σ) :
    (set s' : Program σ ε PUnit).outcome s = some (.ok ⟨⟩, s') := rfl

@[simp] lemma outcome_modify (f : σ → σ) (s : σ) :
    (modify f : Program σ ε PUnit).outcome s = some (.ok ⟨⟩, f s) := rfl

@[simp] lemma outcome_orFail (x : Except ε α) (s : σ) :
    (orFail x : Program σ ε α).outcome s = some (x, s) := rfl

@[simp] theorem outcome_unwrap (x : Option α) (s : σ) :
    (unwrap x : Program σ ε α).outcome s = x.map fun a => (.ok a, s) := rfl

lemma outcome_unwrap_some (a : α) (s : σ) :
    (unwrap (some a) : Program σ ε α).outcome s = some (.ok a, s) := rfl

lemma outcome_ensure (h : c) (s : σ) :
    (ensure c : Program σ ε Unit).outcome s = some (.ok (), s) := by
  rw [ensure, if_pos h, outcome_unwrap_some]

@[simp] lemma outcome_attempt (p : Program σ ε α) (s : σ) :
    (attempt p).outcome s = (p.outcome s).map fun o => (.ok o.1, o.2) := rfl

@[simp] lemma outcome_zoom (get : σ → τ) (set : σ → τ → σ) (p : Program τ ε α) (s : σ) :
    (zoom get set p).outcome s = (p.outcome (get s)).map fun o => (o.1, set s o.2) := rfl

/-- A sequence ends at a failure. -/
lemma outcome_bind (p : Program σ ε α) (f : α → Program σ ε β) (s : σ) :
    (p >>= f).outcome s = (p.outcome s).bind fun o =>
      match o.1 with
      | .ok a => (f a).outcome o.2
      | .error e => some (.error e, o.2) := by
  show (StateT.bind p (ExceptT.bindCont f)) s = _
  show (p s).bind _ = (p s).bind _
  congr 1
  funext o
  rcases o with ⟨r, s'⟩
  cases r <;> rfl

/-- The outcome of a sequence whose first program returns. -/
lemma outcome_bind_ok
    (h : p.outcome s = some (.ok a, s')) : (p >>= f).outcome s = (f a).outcome s' := by
  rw [outcome_bind, h]
  rfl

lemma outcome_get_bind {f : σ → Program σ ε β} {s : σ} : (get >>= f).outcome s = (f s).outcome s :=
  outcome_bind_ok (outcome_get s)

/-- An assertion that fails panics. -/
lemma outcome_bind_ensure (h : ¬c) {f : Unit → Program σ ε β} {s : σ} :
    (ensure c >>= f).outcome s = none := by
  rw [outcome_bind, ensure, if_neg h]
  rfl

lemma outcome_bind_error
    (h : p.outcome s = some (.error e, s')) : (p >>= f).outcome s = some (.error e, s') := by
  rw [outcome_bind, h]
  rfl

/-- A sequence that returns went through both programs. -/
lemma outcome_bind_eq_ok {s'' : σ} {b : β} (h : (p >>= f).outcome s = some (.ok b, s'')) :
    ∃ a s', p.outcome s = some (.ok a, s') ∧ (f a).outcome s' = some (.ok b, s'') := by
  rw [outcome_bind] at h
  obtain ⟨⟨r, s'⟩, hp, hf⟩ := bind_eq_some_iff.mp h
  cases r with
  | ok a => exact ⟨a, s', hp, hf⟩
  | error e => cases hf

/-- A sequence that returns went past its check. -/
lemma outcome_orFail_bind_eq_ok {s'' : σ} {b : β}
    (h : (orFail x >>= f).outcome s = some (.ok b, s'')) :
    ∃ a, x = .ok a ∧ (f a).outcome s = some (.ok b, s'') := by
  obtain ⟨a, s', hx, h⟩ := outcome_bind_eq_ok h
  cases hx
  exact ⟨a, rfl, h⟩

/-! ## Postconditions -/

/-- The program does not panic from `s`, and its outcome satisfies `post`. -/
def Ends (p : Program σ ε α) (s : σ) (post : Except ε α → σ → Prop) : Prop :=
  ∃ r s', p.outcome s = some (r, s') ∧ post r s'

/-- The rule of consequence. -/
lemma Ends.mono (h : Ends p s post) (himp : ∀ r s', post r s' → post' r s') : Ends p s post' := by
  obtain ⟨r, s', ho, hp⟩ := h
  exact ⟨r, s', ho, himp r s' hp⟩

/-- What is known of the outcome holds of the outcome. -/
lemma Ends.of_outcome (h : Ends p s post) {r : Except ε α} (ho : p.outcome s = some (r, s')) :
    post r s' := by
  obtain ⟨r₁, s₁, ho₁, hp⟩ := h
  rw [ho₁] at ho
  cases ho
  exact hp

/-- Two postconditions hold of one outcome. -/
lemma Ends.and (h : Ends p s post) (h' : Ends p s post') :
    Ends p s fun r s' => post r s' ∧ post' r s' := by
  obtain ⟨r, s', ho, hp⟩ := h
  exact ⟨r, s', ho, hp, h'.of_outcome ho⟩

lemma ends_pure (h : post (.ok a) s) : Ends (pure a : Program σ ε α) s post := ⟨_, _, rfl, h⟩

lemma ends_throw (h : post (.error e) s) : Ends (throw e : Program σ ε α) s post := ⟨_, _, rfl, h⟩

lemma ends_get {post : Except ε σ → σ → Prop} (h : post (.ok s) s) :
    Ends (get : Program σ ε σ) s post := ⟨_, _, rfl, h⟩

lemma ends_modify {post : Except ε PUnit → σ → Prop} (h : post (.ok ⟨⟩) (g s)) :
    Ends (modify g : Program σ ε PUnit) s post := ⟨_, _, rfl, h⟩

lemma ends_orFail (h : post x s) : Ends (orFail x : Program σ ε α) s post := ⟨_, _, rfl, h⟩

/-- The rule of sequencing: an error of the first program is the outcome of the whole. -/
lemma Ends.bind (h : Ends p s mid) (hok : ∀ a s', mid (.ok a) s' → Ends (f a) s' goal)
    (herr : ∀ e s', mid (.error e) s' → goal (.error e) s') : Ends (p >>= f) s goal := by
  obtain ⟨r, s', ho, hm⟩ := h
  cases r with
  | ok a =>
    obtain ⟨r₁, s₁, ho₁, hp⟩ := hok a s' hm
    exact ⟨r₁, s₁, by rw [outcome_bind_ok ho, ho₁], hp⟩
  | error e => exact ⟨.error e, s', outcome_bind_error ho, herr e s' hm⟩

/-- A sequence whose first part is known. -/
lemma ends_bind_of_outcome (h : p.outcome s = some (.ok a, s'))
    (hf : Ends (f a) s' goal) : Ends (p >>= f) s goal := by
  obtain ⟨r, s'', ho, hp⟩ := hf
  exact ⟨r, s'', by rw [outcome_bind_ok h, ho], hp⟩

lemma ends_get_bind {f : σ → Program σ ε β} (hf : Ends (f s) s goal) : Ends (get >>= f) s goal :=
  ends_bind_of_outcome (outcome_get s) hf

lemma ends_bind_iff (h : p.outcome s = some (.ok a, s')) :
    Ends (p >>= f) s goal ↔ Ends (f a) s' goal := by
  unfold Ends
  rw [outcome_bind_ok h]

/-- A sequence that fails at its first part. -/
lemma ends_bind_of_error (h : p.outcome s = some (.error e, s'))
    (hpost : goal (.error e) s') : Ends (p >>= f) s goal :=
  ⟨.error e, s', outcome_bind_error h, hpost⟩

/-- A program on a component leaves the rest as it is. -/
lemma Ends.zoom (get : σ → τ) (set : σ → τ → σ) {post : Except ε α → τ → Prop}
    (h : Ends q (get s) post) :
    Ends (Program.zoom get set q) s fun r s' => ∃ t, post r t ∧ s' = set s t := by
  obtain ⟨r, t, ho, hp⟩ := h
  exact ⟨r, set s t, by rw [outcome_zoom, ho]; rfl, t, hp, rfl⟩

/-! ## Programs that keep a relation -/

/-- The program never panics and changes the state along `R` only. -/
def Keeps (R : σ → σ → Prop) (p : Program σ ε α) : Prop := ∀ s, Ends p s fun _ s' => R s s'

/-- The relation between any two states. -/
def Anything (_ _ : σ) : Prop := True

instance : Std.Refl (Anything (σ := σ)) := ⟨fun _ => trivial⟩

instance : IsTrans σ Anything := ⟨fun _ _ _ _ _ => trivial⟩

/-- The program never panics. -/
abbrev Safe (p : Program σ ε α) : Prop := Keeps Anything p

lemma Keeps.mono (h : Keeps R p) (hsub : ∀ s s', R s s' → R' s s') :
    Keeps R' p := fun s => (h s).mono fun _ s' hr => hsub s s' hr

section
variable {R : σ → σ → Prop} [Std.Refl R]

lemma keeps_pure (a : α) : Keeps R (pure a : Program σ ε α) :=
  fun s => ends_pure (Std.Refl.refl s)

lemma keeps_throw (e : ε) : Keeps R (throw e : Program σ ε α) :=
  fun s => ends_throw (Std.Refl.refl s)

lemma keeps_get : Keeps R (get : Program σ ε σ) := fun s => ends_get (Std.Refl.refl s)

lemma keeps_orFail (x : Except ε α) : Keeps R (orFail x : Program σ ε α) :=
  fun s => ends_orFail (Std.Refl.refl s)

lemma keeps_unwrap {x : Option α} (h : x.isSome) : Keeps R (unwrap x : Program σ ε α) := by
  obtain ⟨a, rfl⟩ := isSome_iff_exists.mp h
  exact fun s => ⟨.ok a, s, rfl, Std.Refl.refl s⟩

end

section
variable {R : σ → σ → Prop} [IsTrans σ R]

/-- Sequences keep what their parts keep. -/
lemma Keeps.bind (h : Keeps R p) (hf : ∀ a, Keeps R (f a)) : Keeps R (p >>= f) := by
  intro s
  apply (h s).bind
  · intro a s' hr
    exact (hf a s').mono fun _ s'' hr' => IsTrans.trans _ _ _ hr hr'
  · exact fun _ _ hr => hr

end

/-- A loop that never panics returns a value for each element. -/
lemma ends_mapM (hf : ∀ a, Safe (f a)) (l : List α) (s : σ) :
    Ends (l.mapM f) s fun r _ => ∀ bs, r = .ok bs → bs.length = l.length := by
  induction l generalizing s with
  | nil =>
    rw [List.mapM_nil]
    exact ends_pure fun bs h => by cases h; rfl
  | cons a l ih =>
    rw [List.mapM_cons]
    apply (hf a s).bind
    · intro b s' _
      apply (ih s').bind
      · intro bs s'' hbs
        apply ends_pure
        intro bs' h
        cases h
        rw [List.length_cons, List.length_cons, hbs bs rfl]
      · exact fun e s'' _ bs h => nomatch h
    · exact fun e s' _ bs h => nomatch h

/-- Branches keep a relation if they do so under their condition. -/
lemma keeps_ite {q : Program σ ε α} (hp : c → Keeps R p)
    (hq : ¬c → Keeps R q) : Keeps R (if c then p else q) := by
  split
  · exact hp ‹_›
  · exact hq ‹_›

/-- A change of the state. -/
lemma keeps_modify (h : ∀ s, R s (g s)) :
    Keeps R (modify g : Program σ ε PUnit) := fun s => ends_modify (h s)

/-- A program on a component keeps what depends on the other components only. -/
lemma Keeps.zoom {get : σ → τ} {set : σ → τ → σ} (hq : Safe q) (hR : ∀ s t, R s (set s t)) :
    Keeps R (Program.zoom get set q) := by
  intro s
  apply (Ends.zoom get set (hq (get s))).mono
  rintro _ _ ⟨t, -, rfl⟩
  exact hR s t

/-! ## Partial correctness -/

/-- Wherever the program arrives from `s`, the outcome satisfies `post`. It may also panic. -/
def Leads (p : Program σ ε α) (s : σ) (post : Except ε α → σ → Prop) : Prop :=
  ∀ r s', p.outcome s = some (r, s') → post r s'

/-- The rule of consequence. -/
lemma Leads.mono (h : Leads p s post) (himp : ∀ r s', post r s' → post' r s') : Leads p s post' :=
  fun r s' ho => himp r s' (h r s' ho)

lemma leads_pure (h : post (.ok a) s) : Leads (pure a : Program σ ε α) s post := by
  rintro r s' ⟨⟩
  exact h

lemma leads_throw (h : post (.error e) s) : Leads (throw e : Program σ ε α) s post := by
  rintro r s' ⟨⟩
  exact h

/-- The rule of sequencing. -/
lemma Leads.bind (h : Leads p s mid) (hok : ∀ a s', mid (.ok a) s' → Leads (f a) s' goal)
    (herr : ∀ e s', mid (.error e) s' → goal (.error e) s') : Leads (p >>= f) s goal := by
  intro r s'' ho
  rw [outcome_bind] at ho
  obtain ⟨⟨x, s'⟩, hp, hf⟩ := bind_eq_some_iff.mp ho
  cases x with
  | ok a => exact hok a s' (h _ _ hp) r s'' hf
  | error e =>
    cases hf
    exact herr e s' (h _ _ hp)

lemma leads_bind_of_outcome (h : p.outcome s = some (.ok a, s'))
    (hf : Leads (f a) s' goal) : Leads (p >>= f) s goal := by
  intro r s'' ho
  rw [outcome_bind_ok h] at ho
  exact hf r s'' ho

lemma leads_get_bind {f : σ → Program σ ε β} (hf : Leads (f s) s goal) : Leads (get >>= f) s goal :=
  leads_bind_of_outcome (outcome_get s) hf

/-- An assertion holds wherever the program goes on. -/
lemma leads_ensure_bind {f : Unit → Program σ ε β} (hf : c → Leads (f ()) s goal) :
    Leads (ensure c >>= f) s goal := by
  by_cases h : c
  · exact leads_bind_of_outcome (outcome_ensure h s) (hf h)
  · intro r s' ho
    rw [outcome_bind_ensure h] at ho
    cases ho

/-- A value that the program goes on with. -/
lemma leads_unwrap_bind {x : Option α}
    (hf : ∀ a, x = some a → Leads (f a) s goal) : Leads (unwrap x >>= f) s goal := by
  cases x with
  | none =>
    intro r s' ho
    cases ho
  | some a => exact leads_bind_of_outcome (outcome_unwrap_some a s) (hf a rfl)

/-- A computation without state, whose failure is the outcome of the whole. -/
lemma leads_orFail_bind
    (hok : ∀ a, x = .ok a → Leads (f a) s goal) (herr : ∀ e, x = .error e → goal (.error e) s) :
    Leads (orFail x >>= f) s goal := by
  cases x with
  | ok a => exact leads_bind_of_outcome (outcome_orFail _ s) (hok a rfl)
  | error e =>
    intro r s' ho
    rw [outcome_bind_error (outcome_orFail _ s)] at ho
    cases ho
    exact herr e rfl

/-- Total correctness is partial correctness. -/
lemma Ends.leads (h : Ends p s post) : Leads p s post :=
  fun _ _ ho => h.of_outcome ho

/-! ## Programs that move along a relation -/

/-- Wherever the program arrives, it has changed the state along `R` only. It may also panic. -/
def Along (R : σ → σ → Prop) (p : Program σ ε α) : Prop := ∀ s, Leads p s fun _ s' => R s s'

lemma Along.mono (h : Along R p) (hsub : ∀ s s', R s s' → R' s s') :
    Along R' p := fun s => (h s).mono fun _ s' hr => hsub s s' hr

/-- A program that keeps a relation moves along it. -/
lemma Keeps.along (h : Keeps R p) : Along R p := fun s => (h s).leads

section
variable {R : σ → σ → Prop} [Std.Refl R]

lemma along_pure (a : α) : Along R (pure a : Program σ ε α) := (keeps_pure a).along

lemma along_throw (e : ε) : Along R (throw e : Program σ ε α) := (keeps_throw e).along

lemma along_get : Along R (get : Program σ ε σ) := keeps_get.along

lemma along_orFail (x : Except ε α) : Along R (orFail x : Program σ ε α) := (keeps_orFail x).along

/-- A panic arrives nowhere. -/
lemma along_unwrap (x : Option α) : Along R (unwrap x : Program σ ε α) := by
  cases x with
  | none =>
    intro s r s' ho
    cases ho
  | some a => exact (keeps_unwrap rfl).along

end

/-- Sequences move along what their parts move along. -/
lemma Along.bind [IsTrans σ R] (h : Along R p) (hf : ∀ a, Along R (f a)) : Along R (p >>= f) := by
  intro s
  refine (h s).bind ?_ fun _ _ hr => hr
  intro a s' hr
  exact (hf a s').mono fun _ s'' hr' => IsTrans.trans _ _ _ hr hr'

lemma along_ite {q : Program σ ε α} (hp : Along R p) (hq : Along R q) :
    Along R (if c then p else q) := by
  split
  · exact hp
  · exact hq

/-- A failure that is a value. -/
lemma Along.attempt (h : Along R p) : Along R (attempt p) := by
  intro s r s' ho
  obtain ⟨⟨x, s₁⟩, hp, heq⟩ := map_eq_some_iff.mp ho
  cases heq
  exact h s x s₁ hp

/-- A program on a component. -/
lemma Along.zoom {T : τ → τ → Prop} {get : σ → τ} {set : σ → τ → σ} (hq : Along T q)
    (hR : ∀ s t, T (get s) t → R s (set s t)) : Along R (Program.zoom get set q) := by
  intro s r s' ho
  obtain ⟨⟨x, t⟩, hp, heq⟩ := map_eq_some_iff.mp ho
  cases heq
  exact hR s t (hq (get s) x t hp)

/-! ## Programs with fuel -/

/-- A sequence returns what its second program returns. -/
lemma returns_bind {p : ℕ → Program σ ε α} {f : ℕ → α → Program σ ε β} {o : Except ε β × σ}
    (hp : Fuel.Returns (fun fuel => (p fuel).outcome s) (.ok a, s'))
    (hf : Fuel.Returns (fun fuel => (f fuel a).outcome s') o) :
    Fuel.Returns (fun fuel => (p fuel >>= f fuel).outcome s) o := by
  obtain ⟨n, hn⟩ := hp
  obtain ⟨n', hn'⟩ := hf
  refine ⟨max n n', fun fuel hfuel => ?_⟩
  dsimp only
  rw [outcome_bind_ok (hn fuel (by omega))]
  exact hn' fuel (by omega)

end Program

import SmallScheme.Proofs.Regime

/-! Disciplines: what evaluation may rely on in a store and what every step of it keeps to.

A discipline says which identities and scopes are known in a store, which scopes may be written to,
and how a store may change. It is a regime that knows nothing of a store but what the store itself
shows: its worlds are the valid stores. -/
namespace SmallScheme

/-- What evaluation may rely on in a store, and what every step of it keeps to. -/
structure Discipline where
  valid : Store → Prop
  step : Store → Store → Prop
  /-- The identities that values may have. -/
  known : Store → Nat → Prop
  /-- The scopes that may be copied. -/
  readable : Store → ScopeId → Prop
  /-- The scopes that may be evaluated in. -/
  writable : Store → ScopeId → Prop
  step_refl : ∀ st, step st st
  step_trans : ∀ {a b c}, step a b → step b c → step a c
  known_mono : ∀ {a b}, step a b → ∀ i, known a i → known b i
  readable_mono : ∀ {a b}, step a b → ∀ s, readable a s → readable b s
  writable_mono : ∀ {a b}, step a b → ∀ s, writable a s → writable b s
  readable_of_writable : ∀ {st s}, writable st s → readable st s
  get_within : ∀ {st s name v}, valid st → readable st s → st.get? s name = some v →
    v.Within (known st) (readable st)
  identity : ∀ {st}, valid st →
    valid { st with nextIdentity := st.nextIdentity + 1 } ∧
      step st { st with nextIdentity := st.nextIdentity + 1 } ∧
      known { st with nextIdentity := st.nextIdentity + 1 } st.nextIdentity
  extend : ∀ {st s more}, valid st → readable st s →
    (∀ p ∈ more, p.2.Within (known st) (readable st)) →
    valid (st.extend s more).2 ∧ step st (st.extend s more).2 ∧
      writable (st.extend s more).2 (st.extend s more).1
  define : ∀ {st s name v}, valid st → writable st s → v.Within (known st) (readable st) →
    valid (st.define s name v) ∧ step st (st.define s name v)
  display : ∀ {st v}, valid st → v.Within (known st) (readable st) →
    valid { st with shown := st.shown.push v } ∧ step st { st with shown := st.shown.push v }
  draw : ∀ {st}, valid st →
    valid { st with draws := st.draws + 1 } ∧ step st { st with draws := st.draws + 1 }

namespace Discipline
variable (D : Discipline) {α β : Type} {st : Store}

/-- The values that may occur in a store. -/
abbrev Admits (st : Store) (v : Value) : Prop := v.Within (D.known st) (D.readable st)

/-- From a valid store, an action keeps to the discipline whether it fails or not, and its result
satisfies `Q`. -/
def Obeys (st : Store) (a : Action α) (Q : Store → α → Prop) : Prop :=
  D.valid st → D.valid (a.perform st).2 ∧ D.step st (a.perform st).2 ∧
    ∀ x, (a.perform st).1 = .ok x → Q (a.perform st).2 x

variable {D}

theorem Admits.step {st' : Store} (hs : D.step st st') {v : Value} (h : D.Admits st v) :
    D.Admits st' v :=
  Value.Within.mono h (D.known_mono hs) (D.readable_mono hs)

/-- The worlds of a discipline are its valid stores. -/
def regime (D : Discipline) : Regime where
  World := { st // D.valid st }
  store := Subtype.val
  step a b := D.step a b
  admits w := D.Admits w
  readable w := D.readable w
  writable w := D.writable w
  step_refl w := D.step_refl w
  step_trans := D.step_trans
  admits_mono hs _ hv := hv.step hs
  readable_mono := D.readable_mono
  writable_mono := D.writable_mono
  readable_of_writable := D.readable_of_writable
  hereditary _ := Value.within_hereditary
  closure h := h.2
  get {w _ _ _} hs hg := D.get_within w.2 hs hg
  newList {w items} h := by
    obtain ⟨hv, hs, hk⟩ := D.identity w.2
    exact ⟨⟨_, hv⟩, rfl, hs, Value.within_list.mpr ⟨hk, fun v hm => Admits.step hs (h v hm)⟩⟩
  newClosure {w _ _ s} hb hr := by
    obtain ⟨hv, hs, hk⟩ := D.identity w.2
    exact ⟨⟨_, hv⟩, rfl, hs, hk, Admits.step hs hb, D.readable_mono hs s hr⟩
  extend {w _ _} hr hm := by
    obtain ⟨hv, hs, hw⟩ := D.extend w.2 hr hm
    exact ⟨⟨_, hv⟩, rfl, hs, hw⟩
  define {w _ _ _} hw ha := by
    obtain ⟨hv, hs⟩ := D.define w.2 hw ha
    exact ⟨⟨_, hv⟩, rfl, hs⟩
  display {w _} ha := by
    obtain ⟨hv, hs⟩ := D.display w.2 ha
    exact ⟨⟨_, hv⟩, rfl, hs⟩
  draw w := by
    obtain ⟨hv, hs⟩ := D.draw w.2
    exact ⟨⟨_, hv⟩, rfl, hs⟩

theorem obeys_iff {a : Action α} {Q : Store → α → Prop} :
    D.Obeys st a Q ↔ ∀ hv : D.valid st, D.regime.Obeys ⟨st, hv⟩ a fun w => Q w.1 := by
  constructor
  · intro h hv
    obtain ⟨hv1, hs1, hq⟩ := h hv
    exact ⟨⟨_, hv1⟩, rfl, hs1, hq⟩
  · intro h hv
    obtain ⟨⟨st1, hv1⟩, hst, hs1, hq⟩ := h hv
    -- the world that is come to is the store that is left
    cases hst
    exact ⟨hv1, hs1, hq⟩

theorem obeys_pure {x : α} {Q : Store → α → Prop} (h : Q st x) : D.Obeys st (pure x) Q :=
  obeys_iff.mpr fun _ => Regime.obeys_pure h

theorem obeys_throw {e : Error} {Q : Store → α → Prop} : D.Obeys st (throw e) Q :=
  obeys_iff.mpr fun _ => Regime.obeys_throw

theorem obeys_ofExcept {r : Except Error α} {Q : Store → α → Prop} (h : ∀ x, r = .ok x → Q st x) :
    D.Obeys st (Action.ofExcept r) Q := obeys_iff.mpr fun _ => Regime.obeys_ofExcept h

theorem obeys_bind {a : Action α} {f : α → Action β} {Q : Store → α → Prop} {R : Store → β → Prop}
    (ha : D.Obeys st a Q) (hf : ∀ st' x, D.step st st' → Q st' x → D.Obeys st' (f x) R) :
    D.Obeys st (a >>= f) R := by
  refine obeys_iff.mpr fun hv => Regime.obeys_bind (obeys_iff.mp ha hv) fun w x hs hq => ?_
  exact obeys_iff.mp (hf w.1 x hs hq) w.2

theorem obeys_extend {s : ScopeId} {more : List (String × Value)} (hs : D.readable st s)
    (hm : ∀ p ∈ more, D.Admits st p.2) : D.Obeys st (Action.extend s more) D.writable :=
  obeys_iff.mpr fun hv => Regime.obeys_extend (R := D.regime) (w := ⟨st, hv⟩) hs hm

/-- What there is to do is allowed if it evaluates in a scope that may be written to and has only
values that may occur. -/
def Allows (D : Discipline) (st : Store) : Task → Prop
  | .eval e s => D.Admits st e ∧ D.writable st s
  | .apply procedure args => D.Admits st procedure ∧ ∀ v ∈ args, D.Admits st v

/-- Every allowed task keeps to the discipline one level below. -/
def Lower (D : Discipline) (below : Task → Action Value) : Prop :=
  ∀ st t, D.Allows st t → D.Obeys st (below t) D.Admits

section
variable {run : Value → ScopeId → Action Value}
  (hr : ∀ st e s, D.Admits st e → D.writable st s → D.Obeys st (run e s) D.Admits)
include hr

theorem obeys_runAll {s : ScopeId} {es : List Value} (hw : D.writable st s)
    (hes : ∀ e ∈ es, D.Admits st e) : D.Obeys st (SpecialForm.runAll run s es) D.Admits := by
  refine obeys_iff.mpr fun hv => Regime.obeys_runAll (R := D.regime) ?_ hw hes
  exact fun w e s he hs => obeys_iff.mp (hr w.1 e s he hs) w.2

theorem obeys_runBindings {s : ScopeId} {pairs : List (String × Value)} (hw : D.writable st s)
    (hp : ∀ p ∈ pairs, D.Admits st p.2) :
    D.Obeys st (SpecialForm.runBindings run s pairs) fun st' vs => ∀ p ∈ vs, D.Admits st' p.2 := by
  refine obeys_iff.mpr fun hv => Regime.obeys_runBindings (R := D.regime) ?_ hw hp
  exact fun w e s he hs => obeys_iff.mp (hr w.1 e s he hs) w.2

theorem obeys_runLetSeq {s : ScopeId} {args : List Value} (hs : D.readable st s)
    (hargs : ∀ v ∈ args, D.Admits st v) :
    D.Obeys st (SpecialForm.runLetSeq run s args) D.Admits := by
  refine obeys_iff.mpr fun hv => Regime.obeys_runLetSeq (R := D.regime) ?_ hs hargs
  exact fun w e s he hs => obeys_iff.mp (hr w.1 e s he hs) w.2

end

theorem allows_iff {t : Task} (hv : D.valid st) : D.regime.Allows ⟨st, hv⟩ t ↔ D.Allows st t := by
  cases t with
  | eval e s => exact Iff.rfl
  | apply procedure args => exact Iff.rfl

theorem lower_iff {below : Task → Action Value} : D.regime.Lower below ↔ D.Lower below := by
  constructor
  · intro h st t ht
    exact obeys_iff.mpr fun hv => h ⟨st, hv⟩ t ((allows_iff hv).mpr ht)
  · intro h w t ht
    exact obeys_iff.mp (h w.1 t ((allows_iff w.2).mp ht)) w.2

theorem obeys_evalStep {below : Task → Action Value} (hb : D.Lower below) {s : ScopeId} {e : Value}
    (hw : D.writable st s) (he : D.Admits st e) : D.Obeys st (Task.evalStep below s e) D.Admits :=
  obeys_iff.mpr fun _ => Regime.obeys_evalStep (lower_iff.mpr hb) hw he

theorem obeys_applyStep {below : Task → Action Value} (hb : D.Lower below) {procedure : Value}
    {args : List Value} (hp : D.Admits st procedure) (hargs : ∀ v ∈ args, D.Admits st v) :
    D.Obeys st (Task.applyStep below procedure args) D.Admits :=
  obeys_iff.mpr fun _ => Regime.obeys_applyStep (lower_iff.mpr hb) hp hargs

/-- Evaluation keeps to every discipline, to any depth. -/
theorem perform_obeys (D : Discipline) (depth : Nat) : D.Lower (Task.perform depth) :=
  lower_iff.mp (D.regime.perform_obeys depth)

theorem eval_obeys (D : Discipline) (depth : Nat) (st : Store) (e : Value) (s : ScopeId)
    (he : D.Admits st e) (hs : D.writable st s) : D.Obeys st (eval depth e s) D.Admits :=
  D.perform_obeys depth st (.eval e s) ⟨he, hs⟩

end Discipline

end SmallScheme

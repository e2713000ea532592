import SmallScheme.Proofs.Within

/-! Renaming the identities and scopes in values one to one.

Nothing that a program can observe of a value changes: neither its text nor its truth, and of two
values neither their equality nor whether they are identical. Hence primitives commute with
renaming. -/
namespace SmallScheme

/-- A one-to-one renaming of identities and of scopes. -/
structure Renaming where
  identity : Nat → Nat
  scope : ScopeId → ScopeId
  identity_injective : Function.Injective identity
  scope_injective : Function.Injective scope

namespace Value

mutual
/-- The value with its identities and scopes renamed. -/
def rename (ρ : Renaming) : Value → Value
  | list i items => list (ρ.identity i) (renameAll ρ items)
  | closure i params body s => closure (ρ.identity i) params (body.rename ρ) (ρ.scope s)
  | number x => number x
  | bool b => bool b
  | string s => string s
  | symbol name => symbol name
  | nil => nil
  | unspecified => unspecified
  | builtin op => builtin op
/-- Several values with their identities and scopes renamed. -/
def renameAll (ρ : Renaming) : List Value → List Value
  | [] => []
  | v :: vs => v.rename ρ :: renameAll ρ vs
end

variable (ρ : Renaming)

theorem renameAll_eq_map (vs : List Value) : renameAll ρ vs = vs.map (rename ρ) := by
  induction vs with
  | nil => rfl
  | cons v vs ih => rw [renameAll, ih, List.map_cons]

@[simp]
theorem rename_list (i : Nat) (items : List Value) :
    (list i items).rename ρ = list (ρ.identity i) (items.map (rename ρ)) := by
  rw [rename, renameAll_eq_map]

@[simp]
theorem rename_closure (i : Nat) (params : List String) (body : Value) (s : ScopeId) :
    (closure i params body s).rename ρ =
      closure (ρ.identity i) params (body.rename ρ) (ρ.scope s) := rfl

@[simp] theorem rename_number (x : Binary64) : (number x).rename ρ = number x := rfl
@[simp] theorem rename_bool (b : Bool) : (bool b).rename ρ = bool b := rfl
@[simp] theorem rename_string (s : String) : (string s).rename ρ = string s := rfl
@[simp] theorem rename_symbol (name : String) : (symbol name).rename ρ = symbol name := rfl
@[simp] theorem rename_nil : nil.rename ρ = nil := rfl
@[simp] theorem rename_unspecified : unspecified.rename ρ = unspecified := rfl
@[simp] theorem rename_builtin (op : Builtin) : (builtin op).rename ρ = builtin op := rfl

theorem rename_atom {v : Value} (hl : ∀ i items, v ≠ list i items)
    (hc : ∀ i params body s, v ≠ closure i params body s) : v.rename ρ = v := by
  cases v with
  | list i items => exact absurd rfl (hl i items)
  | closure i params body s => exact absurd rfl (hc i params body s)
  | _ => rfl

theorem text_list (i : Nat) (items : List Value) :
    (list i items).text = "(" ++ " ".intercalate (items.map text) ++ ")" := by
  rw [← texts_eq_map]
  rfl

@[simp]
theorem text_rename (v : Value) : (v.rename ρ).text = v.text := by
  induction v using Value.nested with
  | list i items ih =>
    have h : items.map (text ∘ rename ρ) = items.map text := List.map_congr_left ih
    rw [rename_list, text_list, text_list, List.map_map, h]
  | closure i params body s _ => rfl
  | atom v hl hc => rw [rename_atom ρ hl hc]

theorem canonical_rename (v : Value) : (v.rename ρ).canonical = v.canonical := by
  induction v using Value.nested with
  | list i items ih =>
    have h : items.map (canonical ∘ rename ρ) = items.map canonical := List.map_congr_left ih
    simp only [rename_list, canonical, canonicals_eq_map, List.map_map, h]
  | closure i params body s _ => rfl
  | atom v hl hc => rw [rename_atom ρ hl hc]

@[simp]
theorem displayText_rename (v : Value) : (v.rename ρ).displayText = v.displayText := by
  cases v with
  | string s => rfl
  | _ => exact text_rename ρ _

@[simp]
theorem isTruthy_rename (v : Value) : (v.rename ρ).isTruthy = v.isTruthy := by
  cases v <;> rfl

@[simp]
theorem isNil_rename (v : Value) : (v.rename ρ).isNil = v.isNil := by
  cases v with
  | list i items => simp [isNil]
  | _ => rfl

@[simp]
theorem isProcedure_rename (v : Value) : (v.rename ρ).isProcedure = v.isProcedure := by
  cases v <;> rfl

@[simp]
theorem items?_rename (v : Value) : (v.rename ρ).items? = v.items?.map (List.map (rename ρ)) := by
  cases v with
  | list i items => simp [items?]
  | _ => rfl

@[simp]
theorem isEqual_rename (v w : Value) : (v.rename ρ).isEqual (w.rename ρ) = v.isEqual w := by
  rw [isEqual, isEqual, canonical_rename, canonical_rename]

@[simp]
theorem isIdentical_rename (v w : Value) :
    (v.rename ρ).isIdentical (w.rename ρ) = v.isIdentical w := by
  cases v <;> cases w <;>
    simp [isIdentical, ρ.identity_injective.eq_iff]

theorem map_rename_eq {ρ : Renaming} {vs : List Value} (h : ∀ v ∈ vs, v.rename ρ = v) :
    vs.map (rename ρ) = vs := by
  calc vs.map (rename ρ) = vs.map id := List.map_congr_left h
    _ = vs := List.map_id vs

/-- A renaming changes no value all of whose identities and scopes it fixes. -/
theorem rename_of_within {ρ : Renaming} {v : Value}
    (h : v.Within (fun i => ρ.identity i = i) (fun s => ρ.scope s = s)) : v.rename ρ = v := by
  induction v using Value.nested with
  | list i items ih =>
    obtain ⟨hi, hitems⟩ := within_list.mp h
    rw [rename_list, hi, map_rename_eq fun v hv => ih v hv (hitems v hv)]
  | closure i params body s ih =>
    obtain ⟨hi, hbody, hs⟩ := h
    rw [rename_closure, hi, ih hbody, hs]
  | atom v hl hc => exact rename_atom ρ hl hc

end Value

/-- The renaming that changes nothing. -/
def Renaming.same : Renaming := ⟨id, id, fun _ _ h => h, fun _ _ h => h⟩

theorem Value.rename_same : Value.rename Renaming.same = id := by
  funext v
  refine Value.rename_of_within (v.within_true.mono ?_ ?_)
  · exact fun _ _ => rfl
  · exact fun _ _ => rfl

/-- One renaming after another. -/
def Renaming.trans (ρ σ : Renaming) : Renaming where
  identity := σ.identity ∘ ρ.identity
  scope := σ.scope ∘ ρ.scope
  identity_injective := σ.identity_injective.comp ρ.identity_injective
  scope_injective := σ.scope_injective.comp ρ.scope_injective

theorem Value.rename_trans (ρ σ : Renaming) :
    Value.rename (ρ.trans σ) = Value.rename σ ∘ Value.rename ρ := by
  funext v
  induction v using Value.nested with
  | list i items ih =>
    have hitems : items.map (rename (ρ.trans σ)) = items.map (rename σ ∘ rename ρ) :=
      List.map_congr_left ih
    rw [Function.comp_apply, rename_list, rename_list, rename_list, List.map_map, hitems]
    rfl
  | closure i params body s ih =>
    rw [Function.comp_apply, rename_closure, rename_closure, rename_closure, ih]
    rfl
  | atom v hl hc =>
    rw [Function.comp_apply, rename_atom _ hl hc, rename_atom _ hl hc, rename_atom _ hl hc]

/-- The reply with its identities and scopes renamed. -/
def Reply.rename (ρ : Renaming) : Reply → Reply
  | .value v => .value (v.rename ρ)
  | .fresh items => .fresh (items.map (Value.rename ρ))

namespace Primitive
variable (ρ : Renaming)

@[simp]
theorem number_rename (op : String) (v : Value) : number op (v.rename ρ) = number op v := by
  cases v with
  | list i items =>
    have h := Value.text_rename ρ (.list i items)
    rw [Value.rename_list] at h ⊢
    simp only [number, h]
  | _ => rfl

@[simp]
theorem numbers_rename (op : String) (vs : List Value) :
    numbers op (vs.map (Value.rename ρ)) = numbers op vs := by
  induction vs with
  | nil => rfl
  | cons v vs ih => rw [List.map_cons, numbers, numbers, number_rename, ih]

@[simp]
theorem items_rename (op : String) (v : Value) :
    items op (v.rename ρ) = (items op v).map (List.map (Value.rename ρ)) := by
  unfold items
  rw [Value.items?_rename, Value.text_rename]
  cases v.items? <;> rfl

@[simp]
theorem spliced_rename (v : Value) : spliced (v.rename ρ) = (spliced v).map (Value.rename ρ) := by
  cases v with
  | list i items => rw [Value.rename_list]; rfl
  | _ => rfl

theorem foldNumbersFrom_rename (op : String) (f : Binary64 → Binary64 → Binary64) (x : Binary64)
    (vs : List Value) :
    foldNumbersFrom op f x (vs.map (Value.rename ρ)) =
      (foldNumbersFrom op f x vs).map (Reply.rename ρ) := by
  rw [foldNumbersFrom, foldNumbersFrom, numbers_rename]
  cases numbers op vs <;> rfl

theorem foldNumbers_rename (op : String) (f : Binary64 → Binary64 → Binary64) (v : Value)
    (vs : List Value) :
    foldNumbers op f (v.rename ρ) (vs.map (Value.rename ρ)) =
      (foldNumbers op f v vs).map (Reply.rename ρ) := by
  rw [foldNumbers, foldNumbers, numbers_rename, number_rename]
  cases number op v with
  | error e => rfl
  | ok x => cases numbers op vs <;> rfl

theorem numberThen_rename (op : String) (v : Value) {j k : Binary64 → Except Error Reply}
    (hk : ∀ x, j x = (k x).map (Reply.rename ρ)) :
    (number op (v.rename ρ) >>= j) = (number op v >>= k).map (Reply.rename ρ) := by
  rw [number_rename]
  cases number op v with
  | error e => rfl
  | ok x => exact hk x

theorem itemsThen_rename (op : String) (v : Value) {k : List Value → Except Error Reply}
    (hk : ∀ vs, k (vs.map (Value.rename ρ)) = (k vs).map (Reply.rename ρ)) :
    (items op (v.rename ρ) >>= k) = (items op v >>= k).map (Reply.rename ρ) := by
  rw [items_rename]
  cases items op v with
  | error e => rfl
  | ok vs => exact hk vs

theorem wrongCount_rename (n : Nat) (args : List Value) :
    wrongCount n (args.map (Value.rename ρ)) = (wrongCount n args).map (Reply.rename ρ) := by
  rw [wrongCount, wrongCount, List.length_map]
  rfl

/-- The first argument that `test` accepts, the last argument, or an atom. -/
theorem selected_rename (args : List Value) (test : Value → Bool)
    (ht : ∀ v : Value, test (v.rename ρ) = test v) (b : Bool) :
    (((args.map (Value.rename ρ)).find? test).or (args.map (Value.rename ρ)).getLast?).getD (.bool b) =
      (((args.find? test).or args.getLast?).getD (.bool b)).rename ρ := by
  have hf : test ∘ Value.rename ρ = test := funext ht
  rw [List.find?_map, List.getLast?_map, hf]
  cases args.find? test with
  | some v => rfl
  | none => cases args.getLast? <;> rfl

theorem append_rename (args : List Value) :
    (args.map (Value.rename ρ)).flatMap spliced = (args.flatMap spliced).map (Value.rename ρ) := by
  rw [List.flatMap_map, List.map_flatMap]
  exact congrArg (args.flatMap ·) (funext fun v => spliced_rename ρ v)

/-- A primitive of one argument that commutes with renaming there does so on all arguments. -/
theorem unary_rename {p : Primitive} (hnone : p.reply [] = wrongCount 1 [])
    (hmany : ∀ v w args, p.reply (v :: w :: args) = wrongCount 1 (v :: w :: args))
    (hone : ∀ v : Value, p.reply [v.rename ρ] = (p.reply [v]).map (Reply.rename ρ))
    (args : List Value) :
    p.reply (args.map (Value.rename ρ)) = (p.reply args).map (Reply.rename ρ) := by
  rcases args with _ | ⟨v, _ | ⟨w, args⟩⟩
  · rw [List.map_nil, hnone]
    rfl
  · exact hone v
  · rw [List.map_cons, List.map_cons, hmany, hmany]
    exact wrongCount_rename ρ 1 (v :: w :: args)

/-- A primitive of two arguments that commutes with renaming there does so on all arguments. -/
theorem binary_rename {p : Primitive} (hnone : p.reply [] = wrongCount 2 [])
    (hone : ∀ v, p.reply [v] = wrongCount 2 [v])
    (hmany : ∀ v w x args, p.reply (v :: w :: x :: args) = wrongCount 2 (v :: w :: x :: args))
    (htwo : ∀ v w : Value,
      p.reply [v.rename ρ, w.rename ρ] = (p.reply [v, w]).map (Reply.rename ρ))
    (args : List Value) :
    p.reply (args.map (Value.rename ρ)) = (p.reply args).map (Reply.rename ρ) := by
  rcases args with _ | ⟨v, _ | ⟨w, _ | ⟨x, args⟩⟩⟩
  · rw [List.map_nil, hnone]
    rfl
  · rw [List.map_cons, List.map_nil, hone, hone]
    rfl
  · exact htwo v w
  · rw [List.map_cons, List.map_cons, List.map_cons, hmany, hmany]
    exact wrongCount_rename ρ 2 (v :: w :: x :: args)

/-- Primitives commute with renaming. -/
theorem reply_rename (p : Primitive) (args : List Value) :
    p.reply (args.map (Value.rename ρ)) = (p.reply args).map (Reply.rename ρ) := by
  cases p with
  -- any number of arguments
  | hypot | add | mul => exact foldNumbersFrom_rename ρ _ _ _ args
  | or | and =>
    refine congrArg (fun v => Except.ok (Reply.value v)) (selected_rename ρ args _ ?_ _)
    intro v
    rw [Value.isTruthy_rename]
  | list => rfl
  | append => exact congrArg (fun vs => Except.ok (Reply.fresh vs)) (append_rename ρ args)
  | error =>
    rcases args with _ | ⟨v, args⟩
    · rfl
    · have h : (v :: args).map (Value.displayText ∘ Value.rename ρ) =
          (v :: args).map Value.displayText :=
        List.map_congr_left fun v _ => Value.displayText_rename ρ v
      rw [← List.map_map] at h
      exact congrArg (fun ts => Except.error (Error.runtime (.raised (" ".intercalate ts)))) h
  -- at least one argument; `-` and `/` of one argument start from another number
  | max | min =>
    rcases args with _ | ⟨v, args⟩
    · rfl
    · exact foldNumbers_rename ρ _ _ v args
  | sub =>
    rcases args with _ | ⟨v, _ | ⟨w, args⟩⟩
    · rfl
    · exact numberThen_rename ρ "-" v fun _ => rfl
    · exact foldNumbers_rename ρ _ _ v (w :: args)
  | div =>
    rcases args with _ | ⟨v, _ | ⟨w, args⟩⟩
    · rfl
    · exact foldNumbersFrom_rename ρ _ _ _ [v]
    · exact foldNumbers_rename ρ _ _ v (w :: args)
  -- two arguments
  | pow | atan2 | imul | remainder | modulo =>
    refine binary_rename ρ rfl (fun _ => rfl) (fun _ _ _ _ => rfl) (fun v w => ?_) args
    exact foldNumbers_rename ρ _ _ v [w]
  | compare c =>
    refine binary_rename ρ rfl (fun _ => rfl) (fun _ _ _ _ => rfl) (fun v w => ?_) args
    exact numberThen_rename ρ c.name v fun _ => numberThen_rename ρ c.name w fun _ => rfl
  | numEqual | equal =>
    refine binary_rename ρ rfl (fun _ => rfl) (fun _ _ _ _ => rfl) (fun v w => ?_) args
    exact congrArg (fun b => Except.ok (Reply.value (.bool b))) (Value.isEqual_rename ρ v w)
  | eq =>
    refine binary_rename ρ rfl (fun _ => rfl) (fun _ _ _ _ => rfl) (fun v w => ?_) args
    exact congrArg (fun b => Except.ok (Reply.value (.bool b))) (Value.isIdentical_rename ρ v w)
  | cons =>
    refine binary_rename ρ rfl (fun _ => rfl) (fun _ _ _ _ => rfl) (fun v w => ?_) args
    exact congrArg (fun vs => Except.ok (Reply.fresh (v.rename ρ :: vs))) (spliced_rename ρ w)
  -- one argument
  | math f =>
    refine unary_rename ρ rfl (fun _ _ _ => rfl) (fun v => ?_) args
    exact numberThen_rename ρ f.name v fun _ => rfl
  | not =>
    refine unary_rename ρ rfl (fun _ _ _ => rfl) (fun v => ?_) args
    exact congrArg (fun b => Except.ok (Reply.value (.bool !b))) (Value.isTruthy_rename ρ v)
  | isNull =>
    refine unary_rename ρ rfl (fun _ _ _ => rfl) (fun v => ?_) args
    exact congrArg (fun b => Except.ok (Reply.value (.bool b))) (Value.isNil_rename ρ v)
  | isList =>
    refine unary_rename ρ rfl (fun v _ _ => ?_) (fun v => ?_) args
    · cases v <;> rfl
    · cases v <;> rfl
  | isPair =>
    refine unary_rename ρ rfl (fun v _ _ => ?_) (fun v => ?_) args
    · cases v <;> rfl
    · rcases v with _ | _ | _ | _ | ⟨i, _ | ⟨_, _⟩⟩ <;> rfl
  | length =>
    refine unary_rename ρ rfl (fun v _ _ => ?_) (fun v => ?_) args
    · cases v <;> rfl
    have hlength (vs : List Value) :
        (pure (.value (.number (.ofNat (vs.map (Value.rename ρ)).length))) : Except Error Reply) =
          Except.map (Reply.rename ρ) (pure (.value (.number (.ofNat vs.length)))) := by
      rw [List.length_map]
      rfl
    cases v with
    | string s => rfl
    | _ => exact itemsThen_rename ρ "length" _ hlength
  | car =>
    refine unary_rename ρ rfl (fun _ _ _ => rfl) (fun v => itemsThen_rename ρ "car" v ?_) args
    rintro (_ | ⟨_, _⟩) <;> rfl
  | cdr =>
    refine unary_rename ρ rfl (fun _ _ _ => rfl) (fun v => itemsThen_rename ρ "cdr" v ?_) args
    rintro (_ | ⟨_, _⟩) <;> rfl
  | reverse =>
    refine unary_rename ρ rfl (fun _ _ _ => rfl) (fun v => ?_) args
    refine itemsThen_rename ρ "reverse" v fun vs => ?_
    exact congrArg (fun vs => Except.ok (Reply.fresh vs)) List.map_reverse.symm

end Primitive

end SmallScheme

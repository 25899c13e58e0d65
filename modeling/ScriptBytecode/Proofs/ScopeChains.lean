import ScriptBytecode.Proofs.Drafting.Supply
import Mathlib.Data.List.TakeWhile

/-!
# Scope chains

One list through all variables serves every scope of a function. A ledger of open scopes and declarations says what
can be seen from where; lookup along the chains agrees with it after any steps, also in scopes that were closed.
-/

namespace ScriptBytecode

/-! ## Steps and ledgers -/

/-- A variable or an argument that is added. -/
inductive Addition where
  | scopeVar (name : Atom) (kind : VarKind) (isLexical isConst : Bool)
  | var (name : Atom)
  | arg (name : Atom)

/-- A step of the compiler on the scopes of a function. -/
inductive ScopeStep where
  | push
  | pop
  | add (a : Addition)

def ScopeTree.add (t : ScopeTree) : Addition → ScopeTree
  | .scopeVar name kind isLexical isConst => t.addScopeVar name kind isLexical isConst
  | .var name => t.addVar name
  | .arg name => t.addArg name

def ScopeTree.step (t : ScopeTree) : ScopeStep → ScopeTree
  | .push => t.push
  | .pop => t.pop
  | .add a => t.add a

def ScopeTree.run (t : ScopeTree) (steps : List ScopeStep) : ScopeTree :=
  steps.foldl step t

structure Declaration where
  scope : Nat
  name : Atom
  index : Nat

/-- What happened to the scopes of a function: the current scope and those open around it, inner ones first, how many
scopes and variables there are, and the declarations in scopes, newest first. -/
structure ScopeLog where
  current : Nat
  outer : List Nat
  opened : Nat
  vars : Nat
  declared : List Declaration

namespace ScopeLog

def initial : ScopeLog := ⟨0, [], 1, 0, []⟩

def step (log : ScopeLog) : ScopeStep → ScopeLog
  | .push => { log with current := log.opened, outer := log.current :: log.outer, opened := log.opened + 1 }
  | .pop =>
    match log.outer with
    | [] => log
    | scope :: rest => { log with current := scope, outer := rest }
  | .add (.scopeVar name _ _ _) =>
    { log with vars := log.vars + 1, declared := ⟨log.current, name, log.vars⟩ :: log.declared }
  | .add (.var _) => { log with vars := log.vars + 1 }
  | .add (.arg _) => log

def run (log : ScopeLog) (steps : List ScopeStep) : ScopeLog :=
  steps.foldl step log

/-- The open scopes, inner ones first. -/
def path (log : ScopeLog) : List Nat :=
  log.current :: log.outer

/-- The declarations made while a scope was the current one, newest first. -/
def declaredIn (log : ScopeLog) (scope : Nat) : List Declaration :=
  log.declared.filter (·.scope == scope)

/-- The latest declaration of a name made while the scope was the current one. -/
def latest? (log : ScopeLog) (name : Atom) (scope : Nat) : Option Declaration :=
  (log.declaredIn scope).find? (·.name == name)

/-- The latest declaration of a name in the innermost open scope that has one. -/
def lookup? (log : ScopeLog) (name : Atom) : Option Declaration :=
  log.path.findSome? (log.latest? name)

theorem lookup?_eq (log : ScopeLog) (name : Atom) :
    log.lookup? name = (log.path.flatMap log.declaredIn).find? (·.name == name) :=
  List.find?_flatMap.symm

end ScopeLog

/-! ## Chains as lists -/

namespace ScopeTree

variable {t t' : ScopeTree} {first : Option Nat} {ds : List Declaration}

/-- The variables from `first` on, followed to the end, are these declarations, each older than the one before. -/
inductive Linked (t : ScopeTree) : Option Nat → List Declaration → Prop
  | nil : Linked t none []
  | cons {d : Declaration} {v : Variable} {ds : List Declaration} (var : t.vars[d.index]? = some v)
      (name : v.name = d.name) (scope : v.scopeLevel = d.scope) (older : ∀ d' ∈ ds, d'.index < d.index)
      (next : Linked t v.scopeNext ds) : Linked t (some d.index) (d :: ds)

namespace Linked

variable (h : Linked t first ds)
include h

theorem mono (hvars : ∀ (i : Nat) v, t.vars[i]? = some v → t'.vars[i]? = some v) : Linked t' first ds := by
  induction h with
  | nil => exact .nil
  | cons var name scope older _ ih => exact .cons (hvars _ _ var) name scope older ih

theorem push {v} (hvars : t'.vars = t.vars.push v) : Linked t' first ds := by
  refine h.mono fun i w hw => ?_
  have hlt := (Array.getElem?_eq_some_iff.mp hw).1
  rw [hvars, Array.getElem?_push, if_neg (Nat.ne_of_lt hlt), hw]

theorem index_lt : ∀ d ∈ ds, d.index < t.vars.size := by
  induction h with
  | nil => exact nofun
  | cons var _ _ _ _ ih => exact List.forall_mem_cons.mpr ⟨(Array.getElem?_eq_some_iff.mp var).1, ih⟩

theorem pairwise : (ds.map (·.index)).Pairwise (· > ·) := by
  induction h with
  | nil => exact .nil
  | cons _ _ _ older _ ih => exact List.pairwise_cons.mpr ⟨List.forall_mem_map.mpr older, ih⟩

/-- A chain leads to older variables only, so it is as long as the indices allow. -/
theorem length_le {n} (hn : ∀ d ∈ ds, d.index < n) : ds.length ≤ n := by
  induction h generalizing n with
  | nil => exact Nat.zero_le _
  | cons _ _ _ older _ ih => exact (ih older).trans_lt (hn _ List.mem_cons_self)

theorem walk (go p : Nat → Atom → Bool) {fuel} (hfuel : ds.length ≤ fuel) :
    t.walk (fun v => go v.scopeLevel v.name) (fun v => p v.scopeLevel v.name) fuel first
      = ((ds.takeWhile fun d => go d.scope d.name).find? fun d => p d.scope d.name).map (·.index) := by
  induction h generalizing fuel with
  | nil => cases fuel <;> rfl
  | @cons d v ds var name scope _ _ ih =>
    cases fuel with
    | zero => cases hfuel
    | succ fuel =>
      simp only [ScopeTree.walk, var, name, scope, ih (Nat.le_of_succ_le_succ hfuel), List.takeWhile_cons]
      cases go d.scope d.name <;> cases hp : p d.scope d.name <;> simp [hp]

theorem collect (go : Nat → Bool) {fuel} (hfuel : ds.length ≤ fuel) (done : Array Nat) :
    (t.collect (fun v => go v.scopeLevel) fuel first done).toList
      = done.toList ++ (ds.takeWhile fun d => go d.scope).map (·.index) := by
  induction h generalizing fuel done with
  | nil => cases fuel <;> simp [ScopeTree.collect]
  | @cons d v ds var _ scope _ _ ih =>
    cases fuel with
    | zero => cases hfuel
    | succ fuel =>
      simp only [ScopeTree.collect, var, scope, List.takeWhile_cons]
      cases go d.scope <;> simp [ih (Nat.le_of_succ_le_succ hfuel)]

end Linked

theorem first?_push (t : ScopeTree) (s : Nat) :
    t.push.first? s = if s = t.scopes.size then t.first? t.current else t.first? s := by
  unfold push first?
  rw [Array.getElem?_push]
  split <;> rfl

theorem first?_addScopeVar (t : ScopeTree) (name : Atom) (kind : VarKind) (isLexical isConst : Bool) (s : Nat)
    (hcurrent : t.current < t.scopes.size) :
    (t.addScopeVar name kind isLexical isConst).first? s = if s = t.current then some t.vars.size else t.first? s := by
  unfold addScopeVar first?
  dsimp only
  rw [Array.getElem?_modify]
  by_cases h : s = t.current
  · rw [if_pos h.symm, if_pos h, h, Array.getElem?_eq_getElem hcurrent]
    rfl
  · rw [if_neg (Ne.symm h), if_neg h]

end ScopeTree

/-! ## Trees and ledgers -/

namespace ScopeLog

open ScopeTree

variable {log log' : ScopeLog} {t t' : ScopeTree} {tail : Nat → List Declaration}

theorem declaredIn_scopeVar (log : ScopeLog) (name : Atom) (kind : VarKind) (isLexical isConst : Bool) (s : Nat) :
    (log.step (.add (.scopeVar name kind isLexical isConst))).declaredIn s =
      if s = log.current then ⟨log.current, name, log.vars⟩ :: log.declaredIn s else log.declaredIn s := by
  by_cases h : log.current = s
  · simp [declaredIn, step, h]
  · simp [declaredIn, step, h, Ne.symm h]

/-- A tree of scopes with the ledger of its steps. The chain of a scope starts with its own declarations; behind them
comes the `tail` that could be seen when it was opened, which for an open scope is what the scopes around it have. -/
structure Describes (log : ScopeLog) (tail : Nat → List Declaration) (t : ScopeTree) : Prop where
  current : t.current = log.current
  opened : t.scopes.size = log.opened
  vars : t.vars.size = log.vars
  declared : ∀ s, log.opened ≤ s → log.declaredIn s = []
  path : ∀ s around, s :: around <:+ log.path → s < log.opened ∧ (∀ s' ∈ around, s' < s) ∧
    t.parent? s = around.head? ∧ tail s = around.flatMap log.declaredIn
  chain : ∀ s, Linked t (t.first? s) (log.declaredIn s ++ tail s) ∧ ∀ d ∈ tail s, d.scope ≠ s

namespace Describes

theorem initial : Describes .initial (fun _ => []) .initial where
  current := rfl
  opened := rfl
  vars := rfl
  declared := fun _ _ => rfl
  path := by
    intro s around h
    obtain ⟨rfl, rfl⟩ : s = 0 ∧ around = [] := by simpa [ScopeLog.path, ScopeLog.initial, List.suffix_cons_iff] using h
    exact ⟨Nat.one_pos, nofun, rfl, rfl⟩
  chain := by
    intro s
    refine ⟨?_, nofun⟩
    cases s <;> exact .nil

variable (h : log.Describes tail t)
include h

theorem lt_opened : ∀ s ∈ log.path, s < log.opened := by
  obtain ⟨hcurrent, hbelow, -⟩ := h.path log.current log.outer (List.suffix_refl _)
  exact List.forall_mem_cons.mpr ⟨hcurrent, fun s hs => (hbelow s hs).trans hcurrent⟩

/-- The chain of the current scope goes through all open scopes. -/
theorem current_chain : Linked t (t.first? log.current) (log.path.flatMap log.declaredIn) := by
  have hpath := (h.path log.current log.outer (List.suffix_refl _)).2.2.2
  rw [ScopeLog.path, List.flatMap_cons, ← hpath]
  exact (h.chain log.current).1

theorem push :
    (log.step .push).Describes (Function.update tail log.opened (log.path.flatMap log.declaredIn)) t.push := by
  have hfirst := first?_push t
  rw [h.opened, h.current] at hfirst
  refine ⟨h.opened, by simp [ScopeTree.push, ScopeLog.step, h.opened], h.vars,
    fun s hs => h.declared s (Nat.le_of_succ_le hs), ?_, ?_⟩
  · intro s around hs
    rw [parent?_push, h.opened, h.current, Function.update_apply]
    rcases List.suffix_cons_iff.mp hs with heq | hs
    · obtain ⟨rfl, rfl⟩ : s = log.opened ∧ around = log.path := List.cons.inj heq
      exact ⟨Nat.lt_succ_self _, h.lt_opened, if_pos rfl, if_pos rfl⟩
    · obtain ⟨hlt, hlts, hparent, htail⟩ := h.path s around hs
      rw [if_neg hlt.ne, if_neg hlt.ne]
      exact ⟨Nat.lt_succ_of_lt hlt, hlts, hparent, htail⟩
  · intro s
    rw [hfirst, Function.update_apply]
    split
    · rename_i hs
      have hnone : (log.step .push).declaredIn s = [] := h.declared s hs.symm.le
      rw [hnone, List.nil_append]
      refine ⟨h.current_chain.mono fun _ _ => id, fun d hd => ?_⟩
      -- what can be seen was declared in an open scope
      obtain ⟨s', hs', hd⟩ := List.mem_flatMap.mp hd
      have hscope : d.scope = s' := by simpa using (List.mem_filter.mp hd).2
      have := h.lt_opened s' hs'
      omega
    · exact ⟨(h.chain s).1.mono fun _ _ => id, (h.chain s).2⟩

/-- Steps that change neither scopes nor what was declared in them. -/
theorem keep (hscopes : t'.scopes = t.scopes) (hopened : log'.opened = log.opened)
    (hdeclared : log'.declaredIn = log.declaredIn) (hpath : log'.path <:+ log.path) (hcurrent : t'.current = log'.current)
    (hvars : t'.vars.size = log'.vars) (hlinked : ∀ {first ds}, Linked t first ds → Linked t' first ds) :
    log'.Describes tail t' := by
  refine ⟨hcurrent, by rw [hscopes, hopened, h.opened], hvars, ?_, ?_, ?_⟩
  · rw [hopened, hdeclared]
    exact h.declared
  · intro s around hs
    rw [hopened, hdeclared, parent?, hscopes]
    exact h.path s around (hs.trans hpath)
  · intro s
    rw [hdeclared, first?, hscopes]
    exact (h.chain s).imp_left hlinked

theorem pop : (log.step .pop).Describes tail t.pop := by
  obtain ⟨-, -, hparent, -⟩ := h.path log.current log.outer (List.suffix_refl _)
  obtain ⟨current, outer, opened, vars, declared⟩ := log
  unfold ScopeTree.pop
  rw [h.current, hparent]
  cases outer with
  | nil => exact h
  | cons scope rest =>
    exact h.keep rfl rfl rfl (List.suffix_cons _ _) rfl h.vars fun hlinked => hlinked.mono fun _ _ => id

theorem scopeVar (name : Atom) (kind : VarKind) (isLexical isConst : Bool) :
    (log.step (.add (.scopeVar name kind isLexical isConst))).Describes tail
      (t.addScopeVar name kind isLexical isConst) := by
  obtain ⟨hcurrent, hbelow, -⟩ := h.path log.current log.outer (List.suffix_refl _)
  have hdeclared := declaredIn_scopeVar log name kind isLexical isConst
  refine ⟨h.current, ?_, ?_, ?_, ?_, ?_⟩
  · simp [ScopeTree.addScopeVar, ScopeLog.step, h.opened]
  · simp [ScopeTree.addScopeVar, ScopeLog.step, h.vars]
  · intro s hs
    rw [hdeclared, if_neg (hcurrent.trans_le hs).ne']
    exact h.declared s hs
  · intro s around hs
    obtain ⟨hlt, hlts, hparent, htail⟩ := h.path s around hs
    refine ⟨hlt, hlts, (parent?_addScopeVar ..).trans hparent, htail.trans (List.flatMap_congr fun s' hs' => ?_)⟩
    -- the scopes around an open one are not the current one
    have hle : s ≤ log.current := by
      rcases List.mem_cons.mp (hs.subset List.mem_cons_self) with heq | hmem
      · exact heq.le
      · exact (hbelow s hmem).le
    rw [hdeclared, if_neg ((hlts s' hs').trans_le hle).ne]
  · intro s
    obtain ⟨hlinked, htail⟩ := h.chain s
    refine ⟨?_, htail⟩
    rw [hdeclared, first?_addScopeVar t name kind isLexical isConst s (by rw [h.current, h.opened]; exact hcurrent),
      h.current, h.vars]
    split
    · rename_i hs
      have holder := hlinked.index_lt
      rw [h.vars] at holder
      have hvar : (t.addScopeVar name kind isLexical isConst).vars[log.vars]? =
          some ⟨name, t.current, t.first? s, kind, isConst, isLexical, false⟩ := by
        rw [← h.vars, hs, ← h.current]
        exact Array.getElem?_push_size
      exact .cons (d := ⟨log.current, name, log.vars⟩) hvar rfl h.current holder (hlinked.push rfl)
    · exact hlinked.push rfl

theorem step (s : ScopeStep) : ∃ tail', (log.step s).Describes tail' (t.step s) := by
  cases s with
  | push => exact ⟨_, h.push⟩
  | pop => exact ⟨_, h.pop⟩
  | add a =>
    cases a with
    | scopeVar name kind isLexical isConst => exact ⟨_, h.scopeVar name kind isLexical isConst⟩
    | var name =>
      refine ⟨tail, h.keep rfl rfl rfl (List.suffix_refl _) h.current ?_ fun hlinked => hlinked.push rfl⟩
      simp [ScopeTree.step, ScopeTree.add, ScopeTree.addVar, ScopeLog.step, h.vars]
    | arg name =>
      exact ⟨tail, h.keep rfl rfl rfl (List.suffix_refl _) h.current h.vars fun hlinked => hlinked.mono fun _ _ => id⟩

theorem run (steps : List ScopeStep) : ∃ tail', (log.run steps).Describes tail' (t.run steps) := by
  induction steps generalizing log tail t with
  | nil => exact ⟨tail, h⟩
  | cons s rest ih =>
    obtain ⟨tail', h'⟩ := h.step s
    exact ih h'

/-! ## What is found -/

theorem lookup? (n : Atom) : t.lookup? n t.current = (log.lookup? n).map (·.index) := by
  have hlinked := h.current_chain
  have hwalk := hlinked.walk (fun _ _ => true) (fun _ n' => n' == n) (hlinked.length_le hlinked.index_lt)
  rwa [List.takeWhile_eq_self_iff.mpr fun _ _ => rfl, ← lookup?_eq, ← h.current] at hwalk

/-- The declarations of a scope are the front of its chain. -/
theorem takeWhile_chain (s : Nat) :
    ((log.declaredIn s ++ tail s).takeWhile fun d => d.scope == s) = log.declaredIn s := by
  have hall : ∀ d ∈ log.declaredIn s, d.scope == s := fun d hd => (List.mem_filter.mp hd).2
  have htail := (h.chain s).2
  rw [List.takeWhile_append_of_pos hall]
  cases hs : tail s with
  | nil => exact List.append_nil _
  | cons d rest => simp [htail d (hs ▸ List.mem_cons_self)]

end Describes

/-- What can be seen from the scopes of a tree is what a ledger says: chains end and lead to older variables, and
lookup finds the latest declaration in the innermost scope. -/
structure Explains (log : ScopeLog) (t : ScopeTree) : Prop where
  chain : ∀ s, ∃ ds, t.Linked (t.first? s) ds ∧ t.chain s = ds.map (·.index) ∧ (t.chain s).Pairwise (· > ·)
  current : t.current = log.current
  lookup : ∀ n, t.lookup? n t.current = (log.lookup? n).map (·.index)
  findInScope : ∀ n s, t.findInScope? n s = (log.latest? n s).map (·.index)
  scopeVars : ∀ s, t.scopeVars s = (log.declaredIn s).map (·.index)

theorem Describes.explains (h : log.Describes tail t) : log.Explains t := by
  refine ⟨fun s => ?_, h.current, h.lookup?, fun n s => ?_, fun s => ?_⟩
  all_goals
    have hlinked := (h.chain s).1
    have hlength := hlinked.length_le hlinked.index_lt
  · have hchain := hlinked.collect (fun _ => true) hlength #[]
    rw [List.takeWhile_eq_self_iff.mpr fun _ _ => rfl] at hchain
    exact ⟨_, hlinked, hchain, (congrArg _ hchain).mpr hlinked.pairwise⟩
  · have hwalk := hlinked.walk (fun s' _ => s' == s) (fun _ n' => n' == n) hlength
    rwa [h.takeWhile_chain] at hwalk
  · have hcollect := hlinked.collect (· == s) hlength #[]
    rwa [h.takeWhile_chain] at hcollect

end ScopeLog

/-! ## Inner scopes -/

/-- What can be done in a scope: every scope that is opened is closed again. -/
inductive Filling where
  | nil
  | add (a : Addition) (rest : Filling)
  | scope (inner rest : Filling)

def Filling.steps : Filling → List ScopeStep
  | nil => []
  | add a rest => .add a :: rest.steps
  | scope inner rest => .push :: inner.steps ++ .pop :: rest.steps

/-- The same scopes are open, and those that there were have no new declarations, but for the current one. -/
structure ScopeLog.Keeps (log log' : ScopeLog) (changed : Nat) : Prop where
  current : log'.current = log.current
  outer : log'.outer = log.outer
  opened : log.opened ≤ log'.opened
  declaredIn : ∀ s < log.opened, s ≠ changed → log'.declaredIn s = log.declaredIn s

theorem ScopeLog.Keeps.pop {log log' : ScopeLog} (h : Keeps (log.step .push) log' log.opened) :
    Keeps log (log'.step .pop) log.opened := by
  have hstep : log'.step .pop = { log' with current := log.current, outer := log.outer } := by
    rw [step, h.outer]
    rfl
  rw [hstep]
  exact ⟨rfl, rfl, Nat.le_of_succ_le h.opened, fun s hs => h.declaredIn s (Nat.lt_succ_of_lt hs)⟩

theorem Filling.keeps (f : Filling) (log : ScopeLog) : log.Keeps (log.run f.steps) log.current := by
  induction f generalizing log with
  | nil => exact ⟨rfl, rfl, le_rfl, fun _ _ _ => rfl⟩
  | add a rest ih =>
    have hrest := ih (log.step (.add a))
    cases a with
    | scopeVar name kind isLexical isConst =>
      refine ⟨hrest.current, hrest.outer, hrest.opened, fun s hs hne => (hrest.declaredIn s hs hne).trans ?_⟩
      rw [ScopeLog.declaredIn_scopeVar, if_neg hne]
    | var name | arg name => exact ⟨hrest.current, hrest.outer, hrest.opened, hrest.declaredIn⟩
  | scope inner rest ihinner ihrest =>
    have hinner := (ihinner (log.step .push)).pop
    have hrest := ihrest (((log.step .push).run inner.steps).step .pop)
    have hrun : log.run (scope inner rest).steps = ((((log.step .push).run inner.steps).step .pop).run rest.steps) := by
      simp [ScopeLog.run, steps]
    rw [hrun]
    refine ⟨hrest.current.trans hinner.current, hrest.outer.trans hinner.outer, hinner.opened.trans hrest.opened, ?_⟩
    intro s hs hne
    rw [hrest.declaredIn s (hs.trans_le hinner.opened) (hinner.current ▸ hne),
      hinner.declaredIn s hs (Nat.ne_of_lt hs)]

/-- After any steps the tree agrees with the ledger, and an inner scope leaves no trace in the outer one. -/
theorem scopeTree_run (steps : List ScopeStep) :
    (ScopeLog.initial.run steps).Explains (ScopeTree.initial.run steps) ∧
    ∀ (inner : Filling) (n : Atom),
      ((ScopeTree.initial.run steps).run (.push :: inner.steps ++ [.pop])).lookup? n (ScopeTree.initial.run steps).current
        = (ScopeTree.initial.run steps).lookup? n (ScopeTree.initial.run steps).current := by
  obtain ⟨tail, h⟩ := ScopeLog.Describes.initial.run steps
  refine ⟨h.explains, fun inner n => ?_⟩
  have hkeeps := (inner.keeps ((ScopeLog.initial.run steps).step .push)).pop
  obtain ⟨tail', h'⟩ := h.run (.push :: inner.steps ++ [.pop])
  have hrun : (ScopeLog.initial.run steps).run (.push :: inner.steps ++ [.pop])
      = (((ScopeLog.initial.run steps).step .push).run inner.steps).step .pop := by
    simp [ScopeLog.run]
  rw [hrun] at h'
  have hcurrent := h'.current.trans (hkeeps.current.trans h.current.symm)
  -- the scopes that are open were there before, so that none of them is the inner one
  have hlog : ((((ScopeLog.initial.run steps).step .push).run inner.steps).step .pop).lookup? n
      = (ScopeLog.initial.run steps).lookup? n := by
    rw [ScopeLog.lookup?_eq, ScopeLog.lookup?_eq, ScopeLog.path, hkeeps.current, hkeeps.outer]
    refine congrArg _ (List.flatMap_congr fun s hs => ?_)
    have hlt := h.lt_opened s hs
    exact hkeeps.declaredIn s hlt (Nat.ne_of_lt hlt)
  rw [h.lookup?, ← hcurrent, h'.lookup?, hlog]

end ScriptBytecode

/-
**Distances are exact.**

The analysis of scopes goes through a tree with open scopes, surroundings, distances and findings at
hand, and opens, fills and closes scopes as it goes.  Here it is compared with the sites of the
tree, which need no state.  At every point the open scopes depict the path of the point; so what
the analysis notes and reports at a site is what the site itself says, and the whole pass leaves the
distances and the findings of all sites, in order.

Main definitions:

* `Lox.Depicts` — open scopes that hold the names of a path;
* `Lox.Path.surroundings` — the surroundings of a place, read off its path;
* `Lox.Follows`, `Lox.Walks` — **what a step of the analysis leaves** behind the given sites.

Main results:

* `Lox.Walks.seq`, `Lox.Walks.inScope`, `Lox.Walks.inBody`, `Lox.Walks.inClass` — steps put
  together;
* `Lox.resolveExpr_walks`, `Lox.resolveStmt_walks` — **the analysis follows the sites** of a tree;
* `Lox.distances_exact` — every reference gets the distance of its site, and no other number gets
  one.
-/

import Lox.Proofs.Scope.Scoped
import Lox.Proofs.Scope.Sites
import Lox.Proofs.Sequence

set_option relaxedAutoImplicit false
set_option autoImplicit false

namespace Lox

/-! ### Open scopes and paths -/

/-- The open scopes hold the names of a path.  All of them have their values, but for the variable
whose initializer is gone through, which waits for its value in the innermost scope. -/
inductive Depicts : Scopes → Path → Option String → Prop
  | top {initializing : Option String} : Depicts [] [] initializing
  | scope {γ : Bindings Readiness} {Γ : Scopes} {frame : Frame} {outer : Path}
      {initializing : Option String}
      (names : ∀ x, γ.get? x =
        if x ∈ frame.names then some (if initializing = some x then .declared else .defined)
        else none)
      (held : ∀ x, initializing = some x → x ∈ frame.names)
      (rest : Depicts Γ outer none) : Depicts (γ :: Γ) (frame :: outer) initializing

/-- A scope binds the names that it holds. -/
theorem binds_of_names {γ : Bindings Readiness} {frame : Frame} {initializing : Option String}
    (names : ∀ x, γ.get? x =
      if x ∈ frame.names then some (if initializing = some x then .declared else .defined)
      else none) (x : String) : γ.binds x = decide (x ∈ frame.names) := by
  rw [Bindings.binds, names x]
  split <;> simp [*]

namespace Depicts

variable {Γ : Scopes} {path : Path} {initializing : Option String}

/-- The distance that the open scopes give is the one of the path. -/
theorem findIdx?_eq (h : Depicts Γ path initializing) (x : String) :
    (Γ.findIdx? fun scope => scope.binds x) = path.distance? x := by
  induction h with
  | top => rfl
  | scope names held rest ih =>
    rw [Path.distance?, List.findIdx?_cons, List.findIdx?_cons, binds_of_names names, ih,
      Path.distance?]

/-- A declaration is refused if the innermost scope of the path holds the name. -/
theorem declarationProblem?_eq {r : Resolution} (h : Depicts r.scopes path initializing)
    (x : String) :
    r.declarationProblem? x = if x ∈ path.innermost then some .redeclared else none := by
  unfold Resolution.declarationProblem?
  generalize r.scopes = Γ at h
  cases h with
  | top => simp [Path.innermost]
  | @scope _ _ frame _ _ names held rest =>
    by_cases hx : x ∈ frame.names <;> simp [Path.innermost, binds_of_names names, hx]

/-- A read is refused if it stands in the initializer of the local variable that it reads. -/
theorem readProblem?_eq {r : Resolution} (h : Depicts r.scopes path initializing) (x : String) :
    r.readProblem? x =
      if path ≠ [] ∧ initializing = some x then some .readInOwnInitializer else none := by
  unfold Resolution.readProblem?
  generalize r.scopes = Γ at h
  cases h with
  | top => simp
  | @scope _ _ frame _ _ names held rest =>
    by_cases hi : initializing = some x
    · simp [names x, held x hi, hi]
    · by_cases hx : x ∈ frame.names <;> simp [names x, hx, hi]

/-- A variable is declared, and waits for its value. -/
theorem declare (h : Depicts Γ path none) (x : String) :
    Depicts (Γ.mark x .declared) (path.declare x) (some x) := by
  cases h with
  | top => exact .top
  | scope names held rest =>
    refine .scope (fun y => ?_) (by simp) rest
    rw [Bindings.get?_set, names y]
    by_cases hy : y = x
    · simp [hy]
    · simp [hy, Ne.symm hy]

/-- A variable that waits gets its value. -/
theorem define {x : String} (h : Depicts Γ path (some x)) :
    Depicts (Γ.mark x .defined) path none := by
  cases h with
  | top => exact .top
  | scope names held rest =>
    refine .scope (fun y => ?_) (by simp) rest
    rw [Bindings.get?_set, names y]
    by_cases hy : y = x
    · simp [hy, held x rfl]
    · simp [hy, Ne.symm hy]

/-- A new scope holds the names that it is opened with. -/
theorem push (h : Depicts Γ path none) (opener : Enclosure) (names : List String) :
    Depicts (Resolve.newScope names :: Γ) (⟨opener, names⟩ :: path) none := by
  refine .scope (fun x => ?_) (by simp) h
  rw [Resolve.get?_newScope]
  simp

/-- The outer scopes are as they were. -/
theorem pop {frame : Frame} (h : Depicts Γ (frame :: path) none) : Depicts Γ.tail path none := by
  cases h with
  | scope names held rest => exact rest

end Depicts

/-! ### Surroundings and paths -/

/-- The kind of body that a scope is the one of. -/
def Enclosure.body : Enclosure → BodyKind
  | .function => .function
  | .method true => .initializer
  | .method false => .method
  | .block | .superclass | .object _ => .top

/-- The surroundings of a place: the innermost function or method, and the innermost class. -/
def Path.surroundings (path : Path) : Surroundings where
  body := path.routine?.elim .top Enclosure.body
  cls :=
    match path.class? with
    | none => .none
    | some false => .base
    | some true => .derived

namespace Path

@[simp] theorem surroundings_declare (path : Path) (x : String) :
    (path.declare x).surroundings = path.surroundings := by
  simp only [surroundings, routine?_declare, class?_declare]

@[simp] theorem surroundings_declareAll (path : Path) (xs : List String) :
    (path.declareAll xs).surroundings = path.surroundings := by
  induction xs generalizing path with
  | nil => rfl
  | cons x xs ih => rw [declareAll_cons, ih, surroundings_declare]

/-- The surroundings inside a function or a method. -/
theorem surroundings_routine {opener : Enclosure} (h : opener.isRoutine = true)
    (names : List String) (path : Path) :
    surroundings (⟨opener, names⟩ :: path) = { path.surroundings with body := opener.body } := by
  cases opener <;> first | rfl | cases h

theorem cls_surroundings_eq_none_iff (path : Path) :
    path.surroundings.cls = .none ↔ path.class? = none := by
  unfold surroundings
  rcases path.class? with - | - | - <;> simp

end Path

/-! ### Steps of the analysis -/

/-- The distances after the one of a site is noted. -/
def Site.record (D : Distances) (s : Site) : Distances :=
  match s.lookedUp? with
  | none => D
  | some ref =>
    match s.path.distance? ref.name.lexeme with
    | none => D
    | some d => D.insert ref.id d

/-- What a step leaves behind the given sites, at the end of which the path is `path`: their
distances are noted, their findings are reported, and the surroundings are as before. -/
structure Follows (path : Path) (initializing : Option String) (sites : List Site)
    (r r' : Resolution) : Prop where
  scopes : Depicts r'.scopes path initializing
  place : r'.place = r.place
  distances : r'.distances = sites.foldl Site.record r.distances
  findings : r'.findings = (sites.filterMap Site.finding?).reverse ++ r.findings

/-- How a step over a part of a tree ends: only a hole stops it. -/
inductive Walked (path : Path) (initializing : Option String) (sites : List Site) (whole : Prop)
    (r : Resolution) : EStateM.Result Fault Resolution Unit → Prop
  | done {r' : Resolution} (complete : whole) (follows : Follows path initializing sites r r') :
      Walked path initializing sites whole r (.ok () r')
  | stopped {f : Fault} {r' : Resolution} (hole : ¬ whole) :
      Walked path initializing sites whole r (.error f r')

/-- What a **step of the analysis** does at a place: from open scopes that depict the path of the
place it goes over the given sites, and comes to the end of the part of the tree if that is
whole. -/
def Walks (place : Surroundings) (step : Resolve Unit) (path : Path) (initializing : Option String)
    (path' : Path) (initializing' : Option String) (sites : List Site) (whole : Prop) : Prop :=
  ∀ r : Resolution, Depicts r.scopes path initializing → r.place = place →
    Walked path' initializing' sites whole r (step r)

namespace Walks

variable {place : Surroundings} {step step' : Resolve Unit} {path path' path'' : Path}
  {i i' i'' : Option String} {sites sites' : List Site} {whole whole' : Prop}

theorem pure (path : Path) (i : Option String) :
    Walks place (Pure.pure ()) path i path i [] True :=
  fun _ hr _ => .done trivial ⟨hr, rfl, rfl, rfl⟩

theorem iff (h : Walks place step path i path' i' sites whole) (hw : whole ↔ whole') :
    Walks place step path i path' i' sites whole' := by
  rwa [propext hw] at h

/-- Steps put together. -/
theorem seq (h : Walks place step path i path' i' sites whole)
    (h' : Walks place step' path' i' path'' i'' sites' whole') :
    Walks place (step >>= fun _ => step') path i path'' i'' (sites ++ sites') (whole ∧ whole') := by
  intro r hr hplace
  have hstep := h r hr hplace
  generalize hres : step r = res at hstep
  cases hstep with
  | stopped hole =>
    rw [bind_error hres]
    exact .stopped fun hw => hole hw.1
  | @done r₁ hw hf =>
    rw [bind_ok hres]
    have hstep' := h' r₁ hf.scopes (hf.place.trans hplace)
    generalize step' r₁ = res' at hstep'
    cases hstep' with
    | stopped hole => exact .stopped fun hw => hole hw.2
    | done hw' hf' =>
      refine .done ⟨hw, hw'⟩ ⟨hf'.scopes, hf'.place.trans hf.place, ?_, ?_⟩
      · rw [hf'.distances, hf.distances, List.foldl_append]
      · rw [hf'.findings, hf.findings, List.filterMap_append, List.reverse_append,
          List.append_assoc]

/-- A step that always comes to its end goes before. -/
theorem before (h : Walks place step path i path' i' sites True)
    (h' : Walks place step' path' i' path'' i'' sites' whole) :
    Walks place (step >>= fun _ => step') path i path'' i'' (sites ++ sites') whole :=
  (h.seq h').iff (iff_of_eq (true_and whole))

/-- A step inside a new scope. -/
theorem inScope {opener : Enclosure} {names names' : List String}
    (h : Walks place step (⟨opener, names⟩ :: path) none (⟨opener, names'⟩ :: path) none sites
      whole) :
    Walks place (Resolve.inScope names step) path none path none sites whole := by
  intro r hr hplace
  unfold Resolve.inScope
  have hstep := h { r with scopes := Resolve.newScope names :: r.scopes } (hr.push opener names)
    hplace
  generalize step _ = res at hstep
  cases hstep with
  | stopped hole => exact .stopped hole
  | done hw hf => exact .done hw ⟨hf.scopes.pop, hf.place, hf.distances, hf.findings⟩

/-- A step inside a body of another kind. -/
theorem inBody {kind : BodyKind}
    (h : Walks { place with body := kind } step path i path' i' sites whole) :
    Walks place (Resolve.inBody kind step) path i path' i' sites whole := by
  rintro r hr rfl
  change Walked _ _ _ _ _ ((step >>= fun _ => Resolve.setBody r.place.body)
    { r with place := { r.place with body := kind } })
  have hstep := h { r with place := { r.place with body := kind } } hr rfl
  generalize hres : step _ = res at hstep
  cases hstep with
  | stopped hole =>
    rw [bind_error hres]
    exact .stopped hole
  | done hw hf =>
    rw [bind_ok hres]
    refine .done hw ⟨hf.scopes, ?_, hf.distances, hf.findings⟩
    simp only [hf.place]

/-- A step inside a class of another kind. -/
theorem inClass {kind : ClassKind}
    (h : Walks { place with cls := kind } step path i path' i' sites whole) :
    Walks place (Resolve.inClass kind step) path i path' i' sites whole := by
  rintro r hr rfl
  change Walked _ _ _ _ _ ((step >>= fun _ => Resolve.setClass r.place.cls)
    { r with place := { r.place with cls := kind } })
  have hstep := h { r with place := { r.place with cls := kind } } hr rfl
  generalize hres : step _ = res at hstep
  cases hstep with
  | stopped hole =>
    rw [bind_error hres]
    exact .stopped hole
  | done hw hf =>
    rw [bind_ok hres]
    refine .done hw ⟨hf.scopes, ?_, hf.distances, hf.findings⟩
    simp only [hf.place]

/-! ### Sites one by one -/

/-- A step that reports and notes at one site what the site says. -/
theorem single {s : Site}
    (h : ∀ r, Depicts r.scopes path i → r.place = place →
      ∃ r', step r = .ok () r' ∧ Depicts r'.scopes path' i' ∧ r'.place = r.place ∧
        r'.distances = s.record r.distances ∧ r'.findings = s.finding?.toList ++ r.findings) :
    Walks place step path i path' i' [s] True := by
  intro r hr hplace
  obtain ⟨r', hstep, hscopes, hplace', hdistances, hfindings⟩ := h r hr hplace
  rw [hstep]
  refine .done trivial ⟨hscopes, hplace', hdistances, ?_⟩
  rw [hfindings, List.filterMap_cons]
  cases s.finding? <;> rfl

end Walks

/-- What reporting leaves. -/
theorem report?_eq (t : Token) (p? : Option Problem) (r : Resolution) :
    Resolve.report? t p? r =
      .ok () { r with findings := (p?.map fun p => ⟨.token t, p⟩).toList ++ r.findings } := by
  cases p? <;> rfl

/-- What marking a name leaves. -/
theorem mark_eq (name : Token) (state : Readiness) (r : Resolution) :
    Resolve.mark name state r =
      .ok () { r with scopes := Scopes.mark r.scopes name.lexeme state } := by
  obtain ⟨Γ, place, D, fs⟩ := r
  cases Γ <;> rfl

/-- What looking a reference up leaves. -/
theorem locate_eq {r : Resolution} {s : Site} {ref : Reference} {initializing : Option String}
    (h : Depicts r.scopes s.path initializing) (hs : s.lookedUp? = some ref) :
    Resolve.locate ref r = .ok () { r with distances := s.record r.distances } := by
  change EStateM.Result.ok () _ = _
  simp only [h.findIdx?_eq, Site.record, hs]
  cases s.path.distance? ref.name.lexeme <;> rfl

/-- A site that is no reference has no distance. -/
theorem Site.record_of_none {s : Site} (hs : s.lookedUp? = none) (D : Distances) :
    s.record D = D := by
  rw [record, hs]

section

variable {place : Surroundings} {path : Path} {i : Option String}

theorem declare_walks (place : Surroundings) (path : Path) (name : Token) :
    Walks place (Resolve.declare name) path none (path.declare name.lexeme) (some name.lexeme)
      [⟨path, none, .declares name⟩] True := by
  refine .single fun r hr _ => ?_
  unfold Resolve.declare
  rw [get_bind, bind_ok (report?_eq ..), mark_eq, hr.declarationProblem?_eq]
  exact ⟨_, rfl, hr.declare name.lexeme, rfl, rfl, rfl⟩

theorem define_walks (place : Surroundings) (path : Path) (name : Token) :
    Walks place (Resolve.define name) path (some name.lexeme) path none [] True := by
  intro r hr _
  unfold Resolve.define
  rw [mark_eq]
  exact .done trivial ⟨hr.define, rfl, rfl, rfl⟩

theorem introduce_walks (place : Surroundings) (path : Path) (name : Token) :
    Walks place (Resolve.introduce name) path none (path.declare name.lexeme) none
      [⟨path, none, .declares name⟩] True :=
  (declare_walks place path name).before (define_walks place _ name)

theorem resolveVariable_walks (place : Surroundings) (path : Path) (i : Option String)
    (ref : Reference) :
    Walks place (resolveVariable ref) path i path i [⟨path, i, .reads ref⟩] True := by
  refine .single fun r hr _ => ?_
  unfold resolveVariable
  rw [get_bind, bind_ok (report?_eq ..), hr.readProblem?_eq]
  exact ⟨_, locate_eq (s := ⟨path, i, .reads ref⟩) hr rfl, hr, rfl, rfl, rfl⟩

theorem locate_walks (place : Surroundings) (path : Path) (i : Option String) (ref : Reference) :
    Walks place (Resolve.locate ref) path i path i [⟨path, i, .assigns ref⟩] True :=
  .single fun _ hr _ => ⟨_, locate_eq (s := ⟨path, i, .assigns ref⟩) hr rfl, hr, rfl, rfl, rfl⟩

theorem this_walks (path : Path) (i : Option String) (ref : Reference) :
    Walks path.surroundings (resolveExpr (.this ref)) path i path i [⟨path, i, .this ref⟩]
      True := by
  refine .single fun r hr hplace => ?_
  change ∃ r', (if r.place.cls = .none then Resolve.report ref.name .thisOutsideClass
    else Resolve.locate ref) r = .ok () r' ∧ _
  rw [hplace]
  by_cases hc : path.class? = none
  · rw [if_pos (path.cls_surroundings_eq_none_iff.2 hc)]
    refine ⟨_, rfl, hr, hplace, ?_, ?_⟩
    · rw [Site.record_of_none]
      simp [Site.lookedUp?, Site.reference?, Mention.reference?, hc]
    · simp [Site.finding?, Site.violation?, Mention.token, hc]
  · rw [if_neg fun h => hc (path.cls_surroundings_eq_none_iff.1 h)]
    have hs : Site.lookedUp? ⟨path, i, .this ref⟩ = some ref := by
      simp [Site.lookedUp?, Site.reference?, Mention.reference?, hc]
    refine ⟨_, locate_eq hr hs, hr, hplace, rfl, ?_⟩
    simp [Site.finding?, Site.violation?, hc]

theorem super_walks (path : Path) (i : Option String) (ref : Reference) (method : Token) :
    Walks path.surroundings (resolveExpr (.super ref method)) path i path i
      [⟨path, i, .super ref⟩] True := by
  refine .single fun r hr hplace => ?_
  unfold resolveExpr
  rw [get_bind, bind_ok (report?_eq ..), hplace]
  refine ⟨_, locate_eq (s := ⟨path, i, .super ref⟩) hr rfl, hr, rfl, rfl, ?_⟩
  simp only [Surroundings.superProblem?, Path.surroundings, Site.finding?, Site.violation?]
  rcases path.class? with - | - | - <;> rfl

/-- A `return`, but for its value. -/
theorem returns_walks (path : Path) (keyword : Token) (withValue : Bool) :
    Walks path.surroundings
      (get >>= fun r => Resolve.report? keyword r.place.returnProblem? >>= fun _ =>
        Resolve.report? keyword (if withValue then r.place.returnValueProblem? else none))
      path none path none [⟨path, none, .returns keyword withValue⟩] True := by
  refine .single fun r hr hplace => ?_
  rw [get_bind, bind_ok (report?_eq ..), report?_eq, hplace]
  refine ⟨_, rfl, hr, rfl, rfl, ?_⟩
  simp only [Surroundings.returnProblem?, Surroundings.returnValueProblem?, Path.surroundings,
    Site.finding?, Site.violation?]
  -- No body is the top and an initializer at once, so that at most one problem is found.
  rcases Option.eq_none_or_eq_some path.routine? with hroutine | ⟨opener, hroutine⟩
  · simp [hroutine, Mention.token]
  · have hopener : opener.isRoutine = true := List.find?_some hroutine
    cases opener with
    | function => simp [hroutine, Enclosure.body]
    | method initializer =>
      cases initializer <;> cases withValue <;> simp [hroutine, Enclosure.body, Mention.token]
    | block | superclass | object _ => cases hopener

/-- A class that names a superclass. -/
theorem inherits_walks (place : Surroundings) (path : Path) (name superclass : Token) :
    Walks place
      (Resolve.report? superclass
        (if name.lexeme = superclass.lexeme then some .inheritsFromItself else none))
      path none path none [⟨path, none, .inherits name superclass⟩] True :=
  .single fun _ hr _ => ⟨_, report?_eq .., hr, rfl, rfl, rfl⟩

mutual

/-- **The analysis follows the sites** of an expression. -/
theorem resolveExpr_walks (path : Path) (i : Option String) : ∀ e : Expr,
    Walks path.surroundings (resolveExpr e) path i path i (e.sites path i) e.Whole
  | .literal _ => .pure path i
  | .grouping e => resolveExpr_walks path i e
  | .unary _ e => resolveExpr_walks path i e
  | .binary l _ r => (resolveExpr_walks path i l).seq (resolveExpr_walks path i r)
  | .logical l _ r => (resolveExpr_walks path i l).seq (resolveExpr_walks path i r)
  | .variable ref => resolveVariable_walks _ path i ref
  | .assign ref e =>
    ((resolveExpr_walks path i e).seq (locate_walks _ path i ref)).iff (iff_of_eq (and_true _))
  | .call f _ es => (resolveExpr_walks path i f).seq (resolveArguments_walks path i es)
  | .get e _ => resolveExpr_walks path i e
  | .set o _ v => (resolveExpr_walks path i v).seq (resolveExpr_walks path i o)
  | .this ref => this_walks path i ref
  | .super ref method => super_walks path i ref method
  | .hole _ => fun _ _ _ => .stopped id

/-- The analysis follows the sites of arguments. -/
theorem resolveArguments_walks (path : Path) (i : Option String) : ∀ es : List Expr,
    Walks path.surroundings (resolveArguments es) path i path i (argumentSites path i es)
      (argumentsWhole es)
  | [] => .pure path i
  | e :: es => (resolveExpr_walks path i e).seq (resolveArguments_walks path i es)

end

theorem resolveOptional_walks (path : Path) (i : Option String) (e? : Option Expr) :
    Walks path.surroundings (resolveOptional e?) path i path i (optionalSites path i e?)
      (optionalWhole e?) := by
  cases e? with
  | none => exact .pure path i
  | some e => exact resolveExpr_walks path i e

theorem resolveParameters_walks (place : Surroundings) (path : Path) (ps : List Token) :
    Walks place (resolveParameters ps) path none (path.declareAll (ps.map Token.lexeme)) none
      (parameterSites path ps) True := by
  induction ps generalizing path with
  | nil => exact .pure path none
  | cons p ps ih => exact (introduce_walks place path p).before (ih (path.declare p.lexeme))

/-- The methods of a class are gone through inside a scope that holds `this`. -/
theorem inScope_this_walks {step : Resolve Unit} {sites : List Site} {whole : Prop}
    (derived : Bool)
    (h : Walks (Path.surroundings (⟨.object derived, [thisName]⟩ :: path)) step
      (⟨.object derived, [thisName]⟩ :: path) none (⟨.object derived, [thisName]⟩ :: path) none
      sites whole) :
    Walks { path.surroundings with cls := if derived then .derived else .base }
      (Resolve.inScope [thisName] step) path none path none sites whole := by
  cases derived <;> exact h.inScope

mutual

/-- **The analysis follows the sites** of a statement, and leaves the path behind it. -/
theorem resolveStmt_walks : ∀ (s : Stmt) (path : Path),
    Walks path.surroundings (resolveStmt s) path none (path.declareAll s.introduces) none
      (s.sites path) s.Whole
  | .expression e, path => resolveExpr_walks path none e
  | .print e, path => resolveExpr_walks path none e
  | .var name initializer, path => by
    have hinit := resolveOptional_walks (path.declare name.lexeme) (some name.lexeme) initializer
    rw [Path.surroundings_declare] at hinit
    have h := (declare_walks path.surroundings path name).before
      (hinit.seq (define_walks _ (path.declare name.lexeme) name))
    rw [List.append_nil] at h
    exact h.iff (iff_of_eq (and_true _))
  | .block body, path => by
    have hbody := resolveBody_walks body (⟨.block, []⟩ :: path)
    obtain ⟨names, hnames⟩ :=
      Path.declareAll_cons_eq ⟨.block, []⟩ path (body.flatMap Stmt.introduces)
    rw [hnames] at hbody
    exact hbody.inScope
  | .cond c t none, path => (resolveExpr_walks path none c).seq (resolveStmt_walks t path)
  | .cond c t (some e), path => by
    have helse := resolveStmt_walks e (path.declareAll t.introduces)
    rw [Path.surroundings_declareAll, ← Path.declareAll_append] at helse
    exact (resolveExpr_walks path none c).seq ((resolveStmt_walks t path).seq helse)
  | .loop c body, path => (resolveExpr_walks path none c).seq (resolveStmt_walks body path)
  | .function routine, path => by
    have hbody := resolveRoutine_walks routine .function rfl (path.declare routine.name.lexeme)
    rw [Path.surroundings_declare] at hbody
    exact (introduce_walks path.surroundings path routine.name).before hbody
  | .ret keyword value, path => by
    have h := (returns_walks path keyword value.isSome).before
      (resolveOptional_walks path none value)
    rw [bind_assoc] at h
    simp only [bind_assoc] at h
    exact h
  | .classDecl name none methods, path => by
    have hmethods := inScope_this_walks false (resolveMethods_walks methods
      (⟨.object false, [thisName]⟩ :: path.declare name.lexeme))
    rw [Path.surroundings_declare] at hmethods
    exact ((introduce_walks _ path name).before hmethods).inClass
  | .classDecl name (some superclass) methods, path => by
    have hmethods := inScope_this_walks true (resolveMethods_walks methods
      (⟨.object true, [thisName]⟩ :: ⟨.superclass, [superName]⟩ :: path.declare name.lexeme))
    have hsuper := hmethods.inScope
    have hplace : Path.surroundings (⟨.superclass, [superName]⟩ :: path.declare name.lexeme) =
        path.surroundings := path.surroundings_declare name.lexeme
    rw [hplace] at hsuper
    exact ((introduce_walks _ path name).before ((inherits_walks _ _ name superclass.name).before
      ((resolveVariable_walks _ _ none superclass).before hsuper))).inClass

/-- The analysis follows the sites of a declared body. -/
theorem resolveRoutine_walks : ∀ (r : Routine) (opener : Enclosure), opener.isRoutine = true →
    ∀ path : Path, Walks path.surroundings (resolveRoutine opener.body r) path none path none
      (r.sites opener path) r.Whole
  | .mk _ params body, opener, hopener, path => by
    have hbody := resolveBody_walks body
      (Path.declareAll (⟨opener, []⟩ :: path) (params.map Token.lexeme))
    rw [Path.surroundings_declareAll, Path.surroundings_routine hopener, ← Path.declareAll_append]
      at hbody
    obtain ⟨names, hnames⟩ := Path.declareAll_cons_eq ⟨opener, []⟩ path
      (params.map Token.lexeme ++ body.flatMap Stmt.introduces)
    rw [hnames] at hbody
    exact ((resolveParameters_walks _ _ params).before hbody).inScope.inBody

/-- The analysis follows the sites of a list of statements. -/
theorem resolveBody_walks : ∀ (ss : List Stmt) (path : Path),
    Walks path.surroundings (resolveBody ss) path none
      (path.declareAll (ss.flatMap Stmt.introduces)) none (bodySites path ss) (bodyWhole ss)
  | [], path => .pure path none
  | s :: ss, path => by
    have hrest := resolveBody_walks ss (path.declareAll s.introduces)
    rw [Path.surroundings_declareAll, ← Path.declareAll_append] at hrest
    exact (resolveStmt_walks s path).seq hrest

/-- The analysis follows the sites of methods. -/
theorem resolveMethods_walks : ∀ (ms : List Routine) (path : Path),
    Walks path.surroundings (resolveMethods ms) path none path none (methodSites path ms)
      (methodsWhole ms)
  | [], path => .pure path none
  | m :: ms, path => by
    have hkind : (if m.isInitializer then .initializer else .method) =
        (Enclosure.method m.isInitializer).body := by
      cases m.isInitializer <;> rfl
    have hmethod := resolveRoutine_walks m (.method m.isInitializer) rfl path
    rw [← hkind] at hmethod
    exact hmethod.seq (resolveMethods_walks ms path)

end

end

/-! ### Whole trees -/

/-- A number under which no site is looked up keeps its distance. -/
theorem record_other {id : NodeId} (sites : List Site) (D : Distances)
    (h : ∀ ref ∈ referencesAt sites, ref.id ≠ id) :
    (sites.foldl Site.record D)[id]? = D[id]? := by
  induction sites generalizing D with
  | nil => rfl
  | cons s sites ih =>
    rw [referencesAt_cons] at h
    rw [List.foldl_cons, ih _ fun ref href => h ref (List.mem_append_right _ href)]
    unfold Site.record
    cases href : s.lookedUp? with
    | none => rfl
    | some ref =>
      have hne : ref.id ≠ id := by
        refine h ref (List.mem_append_left _ ?_)
        rw [(Site.lookedUp?_eq_some_iff.1 href).1]
        exact List.mem_singleton_self ref
      dsimp only
      cases s.path.distance? ref.name.lexeme with
      | none => rfl
      | some d => simp [Std.TreeMap.getElem?_insert, hne]

theorem record_self {s : Site} {ref : Reference} (href : s.reference? = some ref) (D : Distances) :
    (s.record D)[ref.id]? = s.distance?.or D[ref.id]? := by
  unfold Site.record Site.distance?
  cases hs : s.lookedUp? with
  | none => rfl
  | some ref' =>
    obtain rfl : ref' = ref := Option.some.inj ((Site.lookedUp?_eq_some_iff.1 hs).1.symm.trans href)
    simp only [Option.bind_some]
    cases s.path.distance? ref'.name.lexeme <;> simp

/-- The reference at a site gets the distance of the site. -/
theorem record_site {sites : List Site} (hids : ((referencesAt sites).map (·.id)).Nodup)
    {s : Site} (hs : s ∈ sites) {ref : Reference} (href : s.reference? = some ref) (D : Distances) :
    (sites.foldl Site.record D)[ref.id]? = s.distance?.or D[ref.id]? := by
  induction sites generalizing D with
  | nil => cases hs
  | cons s' sites ih =>
    rw [referencesAt_cons, List.map_append, List.nodup_append] at hids
    obtain ⟨-, hids, hapart⟩ := hids
    rw [List.foldl_cons]
    rcases List.mem_cons.1 hs with rfl | hs
    · rw [record_other, record_self href]
      intro ref' href' heq
      refine hapart ref.id ?_ ref'.id (List.mem_map_of_mem href') heq.symm
      simp [href]
    · rw [ih hids hs]
      have hmem : ref ∈ referencesAt sites := List.mem_filterMap.2 ⟨s, hs, href⟩
      -- The site before has another reference.
      have hother : (s'.record D)[ref.id]? = D[ref.id]? := by
        refine record_other [s'] D fun ref' href' heq => ?_
        rw [referencesAt_cons, referencesAt_nil, List.append_nil] at href'
        exact hapart ref'.id (List.mem_map_of_mem href') ref.id (List.mem_map_of_mem hmem) heq
      rw [hother]

/-- The sites of a tree, and what a whole pass leaves of the distances `D` of before: the reference
at each site has the distance of the site, or what it had before if the site has none; nothing else
is noted; no scope is open, and the surroundings are those of the top. -/
structure Charted (refs : List Reference) (sites : List Site) (D : Distances) (r : Resolution) :
    Prop where
  references : (referencesAt sites).Perm refs
  distance : ∀ s ∈ sites, ∀ ref, s.reference? = some ref → ∀ d,
    r.distances[ref.id]? = some d ↔
      s.Distance d ∨ (¬ ∃ d', s.Distance d') ∧ D[ref.id]? = some d
  other : ∀ id, (∀ ref ∈ refs, ref.id ≠ id) → r.distances[id]? = D[id]?
  scopes : r.scopes = (Resolution.start D).scopes
  place : r.place = (Resolution.start D).place

/-- A step that goes over the sites of a tree charts it. -/
theorem Walks.charted {step : Resolve Unit} {sites : List Site} {whole : Prop}
    {refs : List Reference} (h : Walks {} step [] none [] none sites whole)
    (hsites : (referencesAt sites).Perm refs) (hids : (refs.map (·.id)).Nodup) (D : Distances) :
    (whole → ∃ r, step (.start D) = .ok () r ∧ Charted refs sites D r) ∧
      (¬ whole → ∃ f r, step (.start D) = .error f r) := by
  have hstep := h (.start D) .top rfl
  generalize step (.start D) = res at hstep
  cases hstep with
  | stopped hole => exact ⟨fun hw => absurd hw hole, fun _ => ⟨_, _, rfl⟩⟩
  | @done r hw hf =>
    refine ⟨fun _ => ⟨r, rfl, hsites, ?_, ?_, ?_, hf.place⟩, fun hole => absurd hw hole⟩
    · intro s hs ref href d
      rw [hf.distances, record_site ((hsites.map _).nodup_iff.2 hids) hs href,
        Option.or_eq_some_iff, Option.eq_none_iff_forall_ne_some]
      simp only [ne_eq, Site.distance?_eq_some_iff, not_exists]
      rfl
    · intro id hid
      rw [hf.distances, record_other sites _ fun ref href => hid ref (hsites.mem_iff.1 href)]
      rfl
    · have hscopes := hf.scopes
      generalize r.scopes = Γ at hscopes ⊢
      cases hscopes
      rfl

/-- **Distances are exact.**  The analysis of a tree comes to its end unless the tree has a hole,
and leaves every reference with the distance of its site. -/
theorem distances_exact (D : Distances) :
    (∀ program : List Stmt, ((referencesOfBody program).map (·.id)).Nodup →
      (bodyWhole program → ∃ r, resolveBody program (.start D) = .ok () r ∧
        Charted (referencesOfBody program) (bodySites [] program) D r) ∧
      (¬ bodyWhole program → ∃ f r, resolveBody program (.start D) = .error f r)) ∧
    ∀ e : Expr, (e.references.map (·.id)).Nodup →
      (e.Whole → ∃ r, resolveExpr e (.start D) = .ok () r ∧
        Charted e.references (e.sites [] none) D r) ∧
      (¬ e.Whole → ∃ f r, resolveExpr e (.start D) = .error f r) := by
  refine ⟨fun program hids => ?_, fun e hids => ?_⟩
  · have hwalks := resolveBody_walks program []
    rw [Path.declareAll_top] at hwalks
    exact hwalks.charted (referencesAt_bodySites program []) hids D
  · exact (resolveExpr_walks [] none e).charted (e.referencesAt_sites [] none) hids D

/-- In `{ var a; fun f() { a = b; } }` the variable that is assigned is one scope away, and the one
that is read is global. -/
theorem distances_exact_closure :
    let name (x : String) : Token := ⟨.identifier, x, 1, .none⟩
    let program : List Stmt := [.block [.var (name "a") none, .function (.mk (name "f") []
      [.expression (.assign ⟨0, name "a"⟩ (.variable ⟨1, name "b"⟩))])]]
    ((referencesOfBody program).map (·.id)).Nodup ∧ bodyWhole program ∧
      ∃ r, resolveBody program (.start {}) = .ok () r ∧
        r.distances[0]? = some 1 ∧ r.distances[1]? = none := by
  intro name program
  have hids : ((referencesOfBody program).map (·.id)).Nodup := by decide
  have hwhole : bodyWhole program := by
    simp [program, bodyWhole, Stmt.Whole, optionalWhole, Routine.Whole, Expr.Whole]
  obtain ⟨r, hr, hcharted⟩ := ((distances_exact {}).1 program hids).1 hwhole
  let path : Path := [⟨.function, []⟩, ⟨.block, ["f", "a"]⟩]
  refine ⟨hids, hwhole, r, hr, ?_, ?_⟩
  · have hsite : ⟨path, none, .assigns ⟨0, name "a"⟩⟩ ∈ bodySites [] program := by decide
    refine (hcharted.distance _ hsite _ rfl 1).2 (.inl ?_)
    exact Site.distance?_eq_some_iff.1 (by decide)
  · have hsite : ⟨path, none, .reads ⟨1, name "b"⟩⟩ ∈ bodySites [] program := by decide
    refine Option.eq_none_iff_forall_ne_some.2 fun d hd => ?_
    rcases (hcharted.distance _ hsite _ rfl d).1 hd with hd | ⟨-, hd⟩
    · have hnone : Site.distance? ⟨path, none, .reads ⟨1, name "b"⟩⟩ = none := by decide
      exact absurd (hnone.symm.trans (Site.distance?_eq_some_iff.2 hd)) nofun
    · simp at hd

end Lox

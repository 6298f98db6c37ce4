import QueryPlan.Proofs.Session.Frontier
import QueryPlan.Proofs.View.Normalization
import QueryPlan.Proofs.View.Unification
/-!
# Plans that read views have the rows of the query

A view may stand for its defining query, and what is built over a view takes the place of the node
that it was found for. So every plan that arises from a query by using views, one after the other,
runs without an error if the query does, and returns the same rows in the same order.
-/
namespace QueryPlan

open OutcomeRow Execution

namespace Unification

variable {c c' C : Cluster} {lacks : DataType} {id target replacement built : NodeId}

/-- What is built over a replacement that has the target's rows takes the place of the node that was
found, unless the target is an aggregate. -/
theorem build_takesPlace (hlacks : Value.SeparatesNumbers lacks) {u : Unification}
    (hfound : Found c id target u) (haggregate : (c.operator target).aggregate? = none)
    (hreplacement : replacement < c.size) (hrun : (u.build replacement).Runs c built c')
    (hC : c'.Extends C) (harity : C.arity replacement = C.arity target)
    (htarget : C.Proper lacks target) (hproper : C.Proper lacks replacement)
    (hrows : C.ranRows replacement = C.ranRows target) :
    built < c'.size ∧ C.TakesPlace lacks id built := by
  cases hfound with
  | filter hresidual =>
    obtain ⟨hgrow, hkept⟩ := Rule.runs_keeping hreplacement hrun
    have hkeptC := hkept.mono hC
    have hresidualC := hresidual.mono (hgrow.trans hC)
    refine ⟨hkept.lt_size, ?_, fun hid => ?_⟩
    · rw [hkeptC.arity_eq, harity, hresidualC.arity_eq]
    · have hfilters := hresidualC.filters hlacks hid htarget
      rw [← hrows] at hfilters
      exact hfilters.proper_kept hlacks hproper hkeptC
  | @project v v' columns targetColumns input targetInput conjuncts residual exprs hnode htargetNode
      hbelow hleftover hrestated =>
    simp only [build, Planning.runs_bind] at hrun
    obtain ⟨filtered, c₁, hfilter, hproject⟩ := hrun
    obtain ⟨hgrow₁, hkept⟩ := Rule.runs_keeping hreplacement hfilter
    obtain ⟨hgrow₂, hprojected⟩ := runs_projectOver hproject
    have hfiltered := hgrow₂.lt_size hkept.lt_size
    have hgrow := (hgrow₁.trans hgrow₂).trans hC
    have hkeptC := hkept.mono (hgrow₂.trans hC)
    have hprojectedC := hprojected.mono hfiltered hC
    have hnodeC := hnode.mono hgrow
    have hlength : exprs.length = columns.length := by
      rw [← hrestated.length_eq, List.length_map]
    have hnames : (exprs.zip (columns.map Prod.snd)).map Prod.fst = exprs :=
      List.map_fst_zip (Nat.le_of_eq (by rw [hlength, List.length_map]))
    refine ⟨?_, ?_, fun hid => ?_⟩
    · rcases hprojected with hnode' | ⟨rfl, -⟩
      · exact hnode'.lt_size
      · exact hfiltered
    · rw [hprojectedC.arity_eq, hnodeC.arity_project, List.length_zip, List.length_map, hlength,
        Nat.min_self]
    · obtain ⟨hinput, hexprs, hliterals, hidRows⟩ := hid.of_project hnodeC
      obtain ⟨htargetInput, houtputs, houtputLiterals, htargetRows⟩ :=
        htarget.of_project (htargetNode.mono hgrow)
      have hfilters := (hbelow.mono hgrow).filters hlacks hinput htargetInput
      have hsubset : ∀ row ∈ C.ranRows input, row ∈ C.ranRows targetInput := by
        rw [hfilters.rows_eq]
        exact fun row hrow => List.mem_of_mem_filter hrow
      have hvalues : ∀ row ∈ C.ranRows targetInput, ∀ o ∈ targetColumns.map Prod.fst,
          o.HasValue row := fun row hrow o ho => (houtputs row hrow o ho).2
      -- first the conjuncts, over the rows of the replacement
      have hconjuncts := forall₂_overOutputs hlacks houtputLiterals hfilters.literals hleftover
      have hover := hfilters.overOutputs hvalues hconjuncts
      rw [← htargetRows, ← hrows] at hover
      obtain ⟨hfilteredProper, hfilteredRows⟩ := hover.proper_kept hlacks hproper hkeptC
      -- then the expressions, over those that are kept
      have hcolumns := forall₂_overOutputs hlacks houtputLiterals hliterals hrestated
      have hprojects := fun row (hrow : row ∈ C.ranRows input) =>
        projectedRow_overOutputs hcolumns (hvalues row (hsubset row hrow)) (hexprs row hrow)
      obtain ⟨hbuilt, hbuiltRows⟩ := hprojectedC.proper hfilteredProper
        (by
          rw [hnames, hfilteredRows]
          exact List.forall_mem_map.mpr fun row hrow => (hprojects row hrow).1)
        (by
          rw [hnames]
          exact literals_of_overOutputs hcolumns)
      refine ⟨hbuilt, ?_⟩
      rw [hbuiltRows, hnames, hfilteredRows, List.map_map, hidRows]
      exact List.map_congr_left fun row hrow => (hprojects row hrow).2
  | aggregate _ htargetNode =>
    rw [haggregate] at htargetNode
    cases htargetNode

end Unification

namespace Lattice

open Planning Cluster

theorem grows_starPlan (l : Lattice) (id : NodeId) (m : StarMatch) : (l.starPlan id m).Grows := by
  refine (grows_createDefault _ _).bind fun scan => (Rule.grows_keeping _ _).bind fun input =>
    (grows_read _).bind fun c => (grows_ofOption _).bind fun exprs => ?_
  split
  · exact grows_pure _
  · exact (grows_pure _).bind fun _ => grows_createDefault _ _

theorem grows_useStarWithin (l : Lattice) (count : Nat) (root : NodeId) (changed : Bool) :
    (l.useStarWithin count root changed).Grows := by
  induction count generalizing root changed with
  | zero => exact grows_pure _
  | succ count ih =>
    refine (grows_inspect _).bind fun found => ?_
    cases found with
    | none => exact grows_pure _
    | some treeFound =>
      exact (l.grows_starPlan _ _).bind fun _ => (grows_replace _ _ _).bind fun _ => ih _ _

theorem grows_useStar (l : Lattice) (id : NodeId) : (l.useStar id).Grows :=
  (grows_read _).bind fun _ => l.grows_useStarWithin _ _ _

end Lattice

namespace Cluster

variable {c c' C : Cluster} {lacks : DataType} {query definition table : NodeId}

/-! ## One view at one place -/

theorem breadthFirst_lt {root : NodeId} (hroot : root < c.size) :
    ∀ id ∈ c.breadthFirst root, id < c.size :=
  fun _ hid => ((mem_breadthFirst_iff hroot).mp hid).lt_size hroot

theorem grows_unifyAt (target query replacement id : NodeId) :
    (unifyAt target query replacement id).Grows := by
  refine (Planning.grows_inspect _).bind fun found => ?_
  cases found with
  | none => exact Planning.grows_pure _
  | some u =>
    exact (Unification.grows_build u replacement).bind fun _ =>
      (grows_replace _ _ _).bind fun _ => Planning.grows_pure _

theorem grows_unifyAll (target query replacement : NodeId) :
    (unifyAll target query replacement).Grows :=
  (Planning.grows_inspect _).bind fun _ => (Planning.grows_read _).bind fun _ =>
    (Planning.grows_mapM _ fun _ _ => grows_unifyAt _ _ _ _).bind fun _ => Planning.grows_pure _

/-- What is known of a normal form and a table that has its rows. -/
structure Replaces (C : Cluster) (lacks : DataType) (target replacement : NodeId) : Prop where
  arity_eq : C.arity replacement = C.arity target
  targetProper : C.Proper lacks target
  replacementProper : C.Proper lacks replacement
  rows_eq : C.ranRows replacement = C.ranRows target

/-- A plan that may stand for the query. -/
def Plans (C : Cluster) (lacks : DataType) (query : NodeId) (c : Cluster) (plan : NodeId) : Prop :=
  plan < c.size ∧ C.TakesPlace lacks query plan

theorem Plans.mono {plan : NodeId} (h : C.Plans lacks query c plan) (hc : c.Extends c') :
    C.Plans lacks query c' plan := ⟨hc.lt_size h.1, h.2⟩

theorem unifyAt_plans (hlacks : Value.SeparatesNumbers lacks) {id : NodeId} {found : Option NodeId}
    (hquery : query < c.size) (htarget : definition < c.size) (htable : table < c.size)
    (hid : id < c.size) (haggregate : (c.operator definition).aggregate? = none)
    (h : (unifyAt definition query table id).Runs c found c') (hC : c'.Extends C)
    (hreplaces : C.Replaces lacks definition table) :
    ∀ plan, found = some plan → C.Plans lacks query c' plan := by
  intro plan hplan
  subst hplan
  simp only [unifyAt, Planning.runs_bind, Planning.runs_inspect] at h
  obtain ⟨o, _, ⟨hfinds, rfl⟩, h⟩ := h
  cases o with
  | none =>
    obtain ⟨heq, -⟩ := Planning.runs_pure.mp h
    cases heq
  | some u =>
    simp only [Planning.runs_bind, Planning.runs_pure, Option.some.injEq] at h
    obtain ⟨built, c₁, hbuild, replaced, c₂, hreplace, rfl, rfl⟩ := h
    have hgrow₁ := (Unification.grows_build u table).runs hbuild
    have hgrow₂ := (grows_replace query id built).runs hreplace
    have hfound := Unification.found_of_finds hid htarget hfinds
    obtain ⟨hbuilt, htakes⟩ := Unification.build_takesPlace hlacks hfound haggregate htable hbuild
      (hgrow₂.trans hC) hreplaces.arity_eq hreplaces.targetProper hreplaces.replacementProper
      hreplaces.rows_eq
    exact replace_related (takesPlace_congruence C lacks) (hgrow₁.lt_size hquery) hbuilt htakes
      hreplace hC

theorem unifyEach_plans (hlacks : Value.SeparatesNumbers lacks) (nodes : List NodeId)
    {found : List (Option NodeId)} (hquery : query < c.size) (htarget : definition < c.size)
    (htable : table < c.size) (hnodes : ∀ id ∈ nodes, id < c.size)
    (haggregate : (c.operator definition).aggregate? = none)
    (h : (nodes.mapM (unifyAt definition query table)).Runs c found c') (hC : c'.Extends C)
    (hreplaces : C.Replaces lacks definition table) :
    ∀ plan, some plan ∈ found → C.Plans lacks query c' plan := by
  induction nodes generalizing c found with
  | nil =>
    obtain ⟨rfl, -⟩ := Planning.runs_pure.mp h
    simp
  | cons id nodes ih =>
    obtain ⟨o, os, c₁, hid, hrest, rfl⟩ := Planning.runs_mapM_cons.mp h
    obtain ⟨hlt, hnodes⟩ := List.forall_mem_cons.mp hnodes
    have hgrow₁ := (grows_unifyAt definition query table id).runs hid
    have hgrow₂ := (Planning.grows_mapM nodes fun i _ =>
      grows_unifyAt definition query table i).runs hrest
    have hfirst := unifyAt_plans hlacks hquery htarget htable hlt haggregate hid (hgrow₂.trans hC)
      hreplaces
    have hothers := ih (hgrow₁.lt_size hquery) (hgrow₁.lt_size htarget) (hgrow₁.lt_size htable)
      (fun i hi => hgrow₁.lt_size (hnodes i hi)) (by rw [hgrow₁.operator_eq htarget]; exact haggregate)
      hrest
    intro plan hplan
    rcases List.mem_cons.mp hplan with heq | hmem
    · exact (hfirst plan heq.symm).mono hgrow₂
    · exact hothers plan hmem

/-- Every plan that has a node computed from a table with the rows of a normal form may stand for the
query. -/
theorem unifyAll_plans (hlacks : Value.SeparatesNumbers lacks) {plans : List NodeId}
    (hquery : query < c.size) (htarget : definition < c.size) (htable : table < c.size)
    (haggregate : (c.operator definition).aggregate? = none)
    (h : (unifyAll definition query table).Runs c plans c') (hC : c'.Extends C)
    (hdefinition : C.Proper lacks definition) (hproper : C.Proper lacks table)
    (hrows : C.ranRows table = C.ranRows definition) :
    ∀ plan ∈ plans, C.Plans lacks query c' plan := by
  have hgrow := (grows_unifyAll definition query table).runs h
  simp only [unifyAll, Planning.runs_bind, Planning.runs_inspect, Planning.runs_read,
    Planning.runs_pure] at h
  obtain ⟨u, _, ⟨hcompatible, rfl⟩, nodes, _, ⟨rfl, rfl⟩, found, c₁, hfound, rfl, rfl⟩ := h
  have harity : c.arity definition = c.arity table := by
    by_cases hsame : (c.rowType definition).isCompatible (c.rowType table) = true
    · exact RowType.arity_eq_of_isCompatible hsame
    · rw [if_neg hsame] at hcompatible
      cases hcompatible
  have hreplaces : C.Replaces lacks definition table := by
    refine ⟨?_, hdefinition, hproper, hrows⟩
    rw [(hgrow.trans hC).arity_eq htable, (hgrow.trans hC).arity_eq htarget, harity]
  intro plan hplan
  obtain ⟨o, ho, heq⟩ := List.mem_filterMap.mp hplan
  exact unifyEach_plans hlacks _ hquery htarget htable (breadthFirst_lt hquery) haggregate hfound hC
    hreplaces plan (by rw [← show o = some plan from heq]; exact ho)

/-! ## One view after the other -/

/-- A view that may be used: plan and defining query are as they should be at every node, and return
the same rows. -/
structure Materializes (c : Cluster) (lacks : DataType) (view : Materialization) : Prop where
  table_lt : view.table < c.size
  query_lt : view.query < c.size
  table : c.ProperUnder lacks view.table
  query : c.ProperUnder lacks view.query
  runs : ∃ rows d d', (run view.table false).Runs c rows d ∧ (run view.query false).Runs c rows d'

/-- Wherever the defining query is normalized on the way to a session, the top of its normal form is no
aggregate. -/
def NormalizesToNoAggregate (c C : Cluster) (view : Materialization) : Prop :=
  ∀ ⦃d d' : Cluster⦄ ⦃query definition query' : NodeId⦄, c.Extends d → query < d.size →
    (normalizePair view.query query).Runs d (definition, query') d' → d'.Extends C →
    (d'.operator definition).aggregate? = none

theorem proper_of_runs {c d d' : Cluster} {root : NodeId} {cancelled : Bool} {rows : List Row}
    (hroot : root < c.size) (hunder : c.ProperUnder lacks root) (hd : c.Extends d)
    (hrun : (run root cancelled).Runs d rows d') (hC : c.Extends C) :
    C.Proper lacks root ∧ C.ranRows root = rows := by
  have hdel : C.Delivers root rows := (hC.delivers_iff hroot).mpr
    ((hd.delivers_iff hroot).mp (delivers_of_runs (hd.lt_size hroot) hrun))
  have hrows := ranRows_of_delivers (hC.lt_size hroot) hdel
  refine ⟨⟨?_, hunder.mono hroot hC⟩, hrows⟩
  rw [hrows]
  exact hdel

theorem grows_overStar (query : NodeId) (view : Materialization) : (overStar query view).Grows := by
  unfold overStar
  cases view.lattice with
  | none => exact Planning.grows_pure _
  | some lattice =>
    exact (grows_optimize _ _).bind fun _ => (lattice.grows_useStar _).bind fun _ =>
      Planning.grows_pure _

theorem grows_substitute (query : NodeId) (view : Materialization) : (substitute query view).Grows :=
  (grows_overStar _ _).bind fun _ => (grows_normalizePair _ _).bind fun _ => grows_unifyAll _ _ _

/-- Plans that read a view may stand for the query. -/
theorem substitute_plans {start : Cluster} (hlacks : Value.SeparatesNumbers lacks)
    {view : Materialization} {plans : List NodeId} (hstart : start.Extends c)
    (hquery : query < c.size) (hview : view.lattice = none) (hmaterial : start.Materializes lacks view)
    (haggregate : start.NormalizesToNoAggregate C view) (hdigest : C.DigestsIdentify)
    (h : (substitute query view).Runs c plans c') (hC : c'.Extends C) :
    ∀ plan ∈ plans, C.Plans lacks query c' plan := by
  unfold substitute overStar at h
  rw [hview] at h
  simp only [Planning.runs_bind, Planning.runs_pure] at h
  obtain ⟨_, _, ⟨rfl, rfl⟩, ⟨definition, query'⟩, c₁, hnormal, hunify⟩ := h
  have hgrow₁ := (grows_normalizePair view.query query).runs hnormal
  have hgrow₂ := (grows_unifyAll definition query' view.table).runs hunify
  have hC₁ := hgrow₂.trans hC
  obtain ⟨⟨hdefinition, htakes⟩, hquery', htakes'⟩ := normalizePair_related
    (takesPlace_congruence C lacks) hdigest (Planner.offersRelated_normalize lacks)
    (hstart.lt_size hmaterial.query_lt) hquery hnormal hC₁
  obtain ⟨rows, d, d', hrunTable, hrunQuery⟩ := hmaterial.runs
  have hstartC := (hstart.trans hgrow₁).trans hC₁
  obtain ⟨htable, htableRows⟩ :=
    proper_of_runs hmaterial.table_lt hmaterial.table (.refl _) hrunTable hstartC
  obtain ⟨hviewQuery, hviewRows⟩ :=
    proper_of_runs hmaterial.query_lt hmaterial.query (.refl _) hrunQuery hstartC
  obtain ⟨hproper, hrows⟩ := htakes.2 hviewQuery
  have hplans := unifyAll_plans hlacks hquery' hdefinition
    ((hstart.trans hgrow₁).lt_size hmaterial.table_lt)
    (haggregate hstart hquery hnormal hC₁) hunify hC hproper htable
    (by rw [htableRows, hrows, hviewRows])
  intro plan hplan
  obtain ⟨hlt, hplan⟩ := hplans plan hplan
  exact ⟨hlt, htakes'.trans hplan⟩

theorem grows_useView (view : Materialization) (position : Nat) (plans : List ViewUse) :
    (useView view position plans).Grows := by
  refine (Planning.grows_mapM _ fun plan _ => ?_).bind fun _ => Planning.grows_pure _
  exact (grows_substitute _ _).bind fun _ => Planning.grows_pure _

/-- Every plan on a list may stand for the query. -/
def AllPlans (C : Cluster) (lacks : DataType) (query : NodeId) (c : Cluster)
    (uses : List ViewUse) : Prop :=
  ∀ use ∈ uses, C.Plans lacks query c use.plan

theorem useView_allPlans {start : Cluster} (hlacks : Value.SeparatesNumbers lacks)
    {view : Materialization} {position : Nat} {plans more : List ViewUse} (hstart : start.Extends c)
    (hview : view.lattice = none) (hmaterial : start.Materializes lacks view)
    (haggregate : start.NormalizesToNoAggregate C view) (hdigest : C.DigestsIdentify)
    (hplans : C.AllPlans lacks query c plans)
    (h : (useView view position plans).Runs c more c') (hC : c'.Extends C) :
    C.AllPlans lacks query c' more := by
  simp only [useView, Planning.runs_bind, Planning.runs_pure] at h
  obtain ⟨found, c₁, hfound, rfl, rfl⟩ := h
  induction plans generalizing c found with
  | nil =>
    obtain ⟨rfl, -⟩ := Planning.runs_pure.mp hfound
    intro use huse
    cases huse
  | cons plan plans ih =>
    obtain ⟨uses, rest, c₂, hplan, hrest, rfl⟩ := Planning.runs_mapM_cons.mp hfound
    simp only [Planning.runs_bind, Planning.runs_pure] at hplan
    obtain ⟨substitutes, c₃, hsubstitute, rfl, rfl⟩ := hplan
    obtain ⟨⟨hlt, htakes⟩, hplans⟩ := List.forall_mem_cons.mp hplans
    have hgrow₁ := (grows_substitute plan.plan view).runs hsubstitute
    have hgrow₂ : c₃.Extends c₁ := (Planning.grows_mapM plans fun p _ =>
      (grows_substitute p.plan view).bind fun _ => Planning.grows_pure _).runs hrest
    have hfirst := substitute_plans hlacks hstart hlt hview hmaterial haggregate hdigest hsubstitute
      (hgrow₂.trans hC)
    have hothers := ih (hstart.trans hgrow₁) (fun use huse => (hplans use huse).mono hgrow₁) _ hrest
    intro use huse
    rw [List.flatten_cons] at huse
    rcases List.mem_append.mp huse with huse | huse
    · obtain ⟨s, hs, rfl⟩ := List.mem_map.mp huse
      obtain ⟨hlt', htakes'⟩ := (hfirst s hs).mono hgrow₂
      exact ⟨hlt', htakes.trans htakes'⟩
    · exact hothers use huse

theorem grows_useEach (views : List Materialization) (positions : List Nat) (plans : List ViewUse) :
    (useEach views positions plans).Grows := by
  induction positions generalizing plans with
  | nil => exact Planning.grows_pure _
  | cons position positions ih =>
    unfold useEach
    split
    · next view hview => exact (grows_useView view position plans).bind fun more => ih _
    · exact ih plans

/-- However many views are used one after the other, every plan may stand for the query. -/
theorem useEach_allPlans {start : Cluster} (hlacks : Value.SeparatesNumbers lacks)
    {views : List Materialization} {positions : List Nat} {plans uses : List ViewUse}
    (hstart : start.Extends c)
    (hpositions : ∀ i ∈ positions, ∀ view, views[i]? = some view → view.lattice = none)
    (hmaterial : ∀ view ∈ views, start.Materializes lacks view)
    (haggregate : ∀ view ∈ views, start.NormalizesToNoAggregate C view)
    (hdigest : C.DigestsIdentify) (hplans : C.AllPlans lacks query c plans)
    (h : (useEach views positions plans).Runs c uses c') (hC : c'.Extends C) :
    C.AllPlans lacks query c' uses := by
  induction positions generalizing c plans with
  | nil =>
    obtain ⟨rfl, rfl⟩ := Planning.runs_pure.mp h
    exact hplans
  | cons position positions ih =>
    obtain ⟨hfirst, hrest⟩ := List.forall_mem_cons.mp hpositions
    unfold useEach at h
    split at h
    · next view hview =>
      rw [Planning.runs_bind] at h
      obtain ⟨more, c₁, hmore, h⟩ := h
      have hlattice := hfirst view hview
      have hgrow₁ := (grows_useView view position plans).runs hmore
      have hgrow₂ := (grows_useEach views positions (plans ++ more)).runs h
      have hmem := List.mem_of_getElem? hview
      have hnew := useView_allPlans hlacks hstart hlattice (hmaterial view hmem)
        (haggregate view hmem) hdigest hplans hmore (hgrow₂.trans hC)
      refine ih (hstart.trans hgrow₁) hrest (fun use huse => ?_) h
      rcases List.mem_append.mp huse with huse | huse
      · exact (hplans use huse).mono hgrow₁
      · exact hnew use huse
    · exact ih hstart hrest hplans h

/-- Views that apply are found by their names, so none of them is a tile. -/
theorem lattice_of_applicable {views : List Materialization} :
    ∀ i ∈ c.applicableViews query views, ∀ view, views[i]? = some view → view.lattice = none := by
  intro i hi view hview
  unfold applicableViews at hi
  dsimp only at hi
  split at hi
  · cases hi
  · obtain ⟨position, -, hfound⟩ := List.mem_filterMap.mp hi
    simp only [Option.bind_eq_bind, Option.bind_eq_some_iff] at hfound
    obtain ⟨name, -, j, hnamed, hj⟩ := hfound
    have hij : j = i := by
      split at hj
      · cases hj
        rfl
      · cases hj
    subst hij
    obtain ⟨⟨view', j⟩, hfind, rfl⟩ := Option.map_eq_some_iff.mp hnamed
    have hmem := List.mem_reverse.mp (List.mem_of_find?_eq_some hfind)
    have heq : views[j]? = some view' := by simpa using List.mem_zipIdx_iff_getElem?.mp hmem
    rw [show views[j]? = some view from hview] at heq
    cases heq
    have hname : view.findableName? = some name := by simpa using List.find?_some hfind
    unfold Materialization.findableName? at hname
    split at hname
    · assumption
    · cases hname

/-- Plans that read views have the rows of the query. Each view returns the rows of its defining
query, whose normal form is no aggregate. In query and views, every node returns rows as wide as its
row type, the conditions are predicates on the rows that reach them, and one kind of number does not
occur among the literals; and no two nodes of the session are written alike and have different
operators. -/
theorem useViews_rows {c c' d d' : Cluster} {lacks : DataType} {query : NodeId}
    {views : List Materialization} {uses : List ViewUse} {cancelled : Bool} {rows : List Row}
    (hlacks : Value.SeparatesNumbers lacks) (hquery : query < c.size)
    (hunder : c.ProperUnder lacks query) (hviews : ∀ view ∈ views, c.Materializes lacks view)
    (haggregate : ∀ view ∈ views, c.NormalizesToNoAggregate c' view)
    (huses : (useViews query views).Runs c uses c') (hdigest : c'.DigestsIdentify)
    (hd : c.Extends d) (hrun : (run query cancelled).Runs d rows d') :
    ∀ use ∈ uses, use.plan < c'.size ∧
      ∀ e, c'.Extends e → ∃ e', (run use.plan false).Runs e rows e' := by
  intro use huse
  simp only [useViews, Planning.runs_bind, Planning.runs_read] at huses
  obtain ⟨_, _, ⟨rfl, rfl⟩, h⟩ := huses
  split at h
  · obtain ⟨rfl, -⟩ := Planning.runs_pure.mp h
    cases huse
  · simp only [Planning.runs_bind, Planning.runs_pure] at h
    obtain ⟨plans, c₁, heach, rfl, rfl⟩ := h
    have hpositions : ∀ i ∈ c.applicableViews query views, ∀ view, views[i]? = some view →
        view.lattice = none := lattice_of_applicable
    have hgrow := (grows_useEach views _ [⟨query, []⟩]).runs heach
    have hself : c₁.AllPlans lacks query c [⟨query, []⟩] := by
      intro u hu
      rw [List.mem_singleton.mp hu]
      exact ⟨hquery, .refl query⟩
    obtain ⟨hlt, htakes⟩ := useEach_allPlans hlacks (.refl c) hpositions hviews haggregate hdigest
      hself heach (.refl _) use (List.mem_of_mem_drop huse)
    obtain ⟨hproper, hrows⟩ := proper_of_runs hquery hunder hd hrun hgrow
    obtain ⟨hplan, hplanRows⟩ := htakes.2 hproper
    have hdel := hplan.delivers
    rw [hplanRows, hrows] at hdel
    exact ⟨hlt, fun e he => runs_of_delivers (he.lt_size hlt) ((he.delivers_iff hlt).mpr hdel)⟩

/-! ## A view of some employees -/

/-- Employees with their departments. -/
def staff : Table :=
  { name := ["emps"], rowType := ⟨[⟨"empno", .bigint, false⟩, ⟨"deptno", .bigint, true⟩]⟩,
    source := some (.ok [[.integer 100, .integer 10], [.integer 110, .integer 20],
      [.integer 150, .integer 30]]) }

/-- The later employees. -/
def laterStaff : Table :=
  { name := ["later"], rowType := staff.rowType,
    source := some (.ok [[.integer 110, .integer 20], [.integer 150, .integer 30]]) }

/-- Later employees of one department, beside all later employees and the table that holds them. -/
def laterOfDepartment : Planning NodeId := do
  let emps ← createDefault (.scan .none staff) []
  let later := Expr.call .greaterThan [.column 0 .bigint, .literal (.integer 100)]
  let _ ← createDefault (.filter .none later) [emps]
  let _ ← createDefault (.scan .none laterStaff) []
  let department := Expr.call .equals [.column 1 .bigint, .literal (.integer 20)]
  let filter ← createDefault (.filter .none (Expr.call .and [later, department])) [emps]
  createDefault (.project .none [(.column 0 .bigint, "empno")]) [filter]

def staffSession : Cluster :=
  (laterOfDepartment.run.run (start ⟨[staff, laterStaff]⟩ default default)).2

def laterView : Materialization := { table := 2, query := 1, name := some ["later"] }

/-- The session after the view was used. -/
def staffUsed : Cluster := ((useViews 4 [laterView]).run.run staffSession).2

theorem staffSession_materializes : staffSession.Materializes .double laterView where
  table_lt := by decide +kernel
  query_lt := by decide +kernel
  table := .of_all (by decide +kernel) (by decide +kernel)
  query := .of_all (by decide +kernel) (by decide +kernel)
  runs := by
    obtain ⟨d, htable⟩ : ∃ d, (run laterView.table false).Runs staffSession
        (staffSession.ranRows laterView.query) d := exists_runs (by decide +kernel) (by decide +kernel)
    exact ⟨_, d, _, htable, runs_ranRows (by decide +kernel)⟩

theorem useViews_rows_laterStaff :
    ∃ e, (run 6 false).Runs staffUsed (staffSession.ranRows 4) e := by
  have hdigest : staffUsed.DigestsIdentify := .of_nodup (by decide +kernel)
  have haggregate : staffSession.NormalizesToNoAggregate staffUsed laterView := by
    intro d d' query definition query' hd hquery h hC
    refine normalizePair_not_aggregate hdigest (hd.lt_size staffSession_materializes.query_lt) hquery
      (not_topsAggregate ?_ ?_) h hC
    · exact Option.isNone_iff_eq_none.mp (by decide +kernel)
    · exact Option.isNone_iff_eq_none.mp (by decide +kernel)
  have huses : (useViews 4 [laterView]).Runs staffSession [⟨6, [0]⟩] staffUsed :=
    Planning.runs_of_toOption (by decide +kernel)
  exact (useViews_rows (.inr rfl) (by decide +kernel)
    (.of_all (by decide +kernel) (by decide +kernel))
    (List.forall_mem_singleton.mpr staffSession_materializes)
    (List.forall_mem_singleton.mpr haggregate) huses hdigest (.refl _)
    (runs_ranRows (by decide +kernel)) ⟨6, [0]⟩ List.mem_cons_self).2 staffUsed (.refl _)

/-! ## Rows of another width -/

/-- A table with one column that stores a row of two values. -/
def doubled : Table :=
  { name := ["T"], rowType := ⟨[⟨"a", .bigint, true⟩]⟩,
    source := some (.ok [[.integer 1, .integer 2]]) }

/-- The only column of the table, and another table that holds its rows. -/
def columnOfDoubled : Planning NodeId := do
  let scan ← createDefault (.scan .none doubled) []
  let _ ← createDefault (.scan .none { doubled with name := ["V"] }) []
  createDefault (.project .none [(.column 0 .bigint, "a")]) [scan]

def doubledSession : Cluster := (columnOfDoubled.run.run (start ⟨[doubled]⟩ default default)).2

def doubledView : Materialization := { table := 1, query := 0, name := some ["V"] }

def doubledUsed : Cluster := ((useViews 2 [doubledView]).run.run doubledSession).2

/-- A projection on all columns drops a value that no column declares, and a plan that reads the view
without the projection keeps it. -/
theorem useViews_changes_wide_rows :
    (∃ rows d d', (run doubledView.table false).Runs doubledSession rows d ∧
      (run doubledView.query false).Runs doubledSession rows d') ∧
    doubledSession.NormalizesToNoAggregate doubledUsed doubledView ∧
    (∀ id < doubledSession.size, Meaning.truthful (doubledSession.operator id)
        ((doubledSession.inputs id).map fun j => .ofRows (doubledSession.ranRows j)) = true ∧
      ∀ e ∈ (doubledSession.operator id).exprs, e.Lacks .double) ∧
    (useViews 2 [doubledView]).Runs doubledSession [⟨1, [0]⟩] doubledUsed ∧
    doubledUsed.DigestsIdentify ∧
    (∃ d, (run 2 false).Runs doubledSession [[.integer 1]] d) ∧
    ∃ d, (run 1 false).Runs doubledUsed [[.integer 1, .integer 2]] d := by
  have hdigest : doubledUsed.DigestsIdentify := .of_nodup (by decide +kernel)
  refine ⟨?_, ?_, by decide +kernel, Planning.runs_of_toOption (by decide +kernel), hdigest,
    exists_runs (by decide +kernel) (by decide +kernel), exists_runs (by decide +kernel) (by decide +kernel)⟩
  · obtain ⟨d, htable⟩ : ∃ d, (run doubledView.table false).Runs doubledSession
        [[.integer 1, .integer 2]] d := exists_runs (by decide +kernel) (by decide +kernel)
    obtain ⟨d', hquery⟩ : ∃ d, (run doubledView.query false).Runs doubledSession
        [[.integer 1, .integer 2]] d := exists_runs (by decide +kernel) (by decide +kernel)
    exact ⟨_, d, d', htable, hquery⟩
  · intro d d' query definition query' hd hquery h hC
    have hlt : doubledView.query < doubledSession.size := by decide +kernel
    refine normalizePair_not_aggregate hdigest (hd.lt_size hlt) hquery (not_topsAggregate ?_ ?_) h hC
    · exact Option.isNone_iff_eq_none.mp (by decide +kernel)
    · exact Option.isNone_iff_eq_none.mp (by decide +kernel)

end Cluster

end QueryPlan

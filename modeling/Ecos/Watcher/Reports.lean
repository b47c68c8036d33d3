import Ecos.Watcher.Monitor

namespace Ecos.Watcher

inductive ReportType where
  | ADD
  | UPDATE
  | DELETE
  deriving DecidableEq, Repr

structure Report where
  reportType : ReportType
  nodeReport : Option NodeStatusReport := none
  pipelineReport : Option PipelineReport := none
  deriving DecidableEq, Repr

structure Reporter where
  isChanged : Bool
  getReports : List Report
  deriving DecidableEq, Repr

namespace Reporter

def pipelines (r : Reporter) : List PipelineReport := r.getReports.filterMap Report.pipelineReport

def pgIds (r : Reporter) : List UInt64 := r.pipelines.map PipelineReport.pgId

end Reporter

def changed (rs : List Reporter) : List Reporter := rs.filter Reporter.isChanged

structure PipelineMap where
  reports : List PipelineReport
  nodup : (reports.map PipelineReport.pgId).Nodup

namespace PipelineMap

def pgIds (m : PipelineMap) : List UInt64 := m.reports.map PipelineReport.pgId

def empty : PipelineMap := ⟨[], List.nodup_nil⟩

def store (m : PipelineMap) (p : PipelineReport) : PipelineMap where
  reports := m.reports.filter (·.pgId ≠ p.pgId) ++ [p]
  nodup := by
    rw [List.map_append, List.nodup_append]
    refine ⟨m.nodup.sublist (List.filter_sublist.map _), List.nodup_singleton _, ?_⟩
    intro a ha b hb
    obtain ⟨q, hq, rfl⟩ := List.mem_map.mp ha
    rw [List.mem_singleton.mp hb]
    simpa using (List.mem_filter.mp hq).2

def ofReports (ps : List PipelineReport) : PipelineMap := ps.foldl store empty

theorem mem_pgIds_store (m : PipelineMap) (p : PipelineReport) (pg : UInt64) :
    pg ∈ (m.store p).pgIds ↔ pg ∈ m.pgIds ∨ pg = p.pgId := by
  by_cases heq : pg = p.pgId
  · simp [store, pgIds, heq]
  · have hne : ∀ q : PipelineReport, q.pgId = pg → q.pgId ≠ p.pgId := fun q hq => hq ▸ heq
    simp only [store, pgIds, List.map_append, List.mem_append, List.mem_map, List.mem_filter,
      List.map_cons, List.map_nil, List.mem_singleton, heq, or_false, decide_eq_true_eq]
    exact ⟨fun ⟨q, hq, hpg⟩ => ⟨q, hq.1, hpg⟩, fun ⟨q, hq, hpg⟩ => ⟨q, ⟨hq, hne q hpg⟩, hpg⟩⟩

theorem mem_pgIds_foldl_store (m : PipelineMap) (ps : List PipelineReport) (pg : UInt64) :
    pg ∈ (ps.foldl store m).pgIds ↔ pg ∈ m.pgIds ∨ pg ∈ ps.map PipelineReport.pgId := by
  induction ps generalizing m with
  | nil => simp
  | cons p ps ih =>
    rw [List.foldl_cons, ih, mem_pgIds_store, List.map_cons, List.mem_cons, or_assoc]

theorem mem_pgIds_ofReports (ps : List PipelineReport) (pg : UInt64) :
    pg ∈ (ofReports ps).pgIds ↔ pg ∈ ps.map PipelineReport.pgId := by
  rw [ofReports, mem_pgIds_foldl_store]
  simp [empty, pgIds]

end PipelineMap

structure SelfMonitor where
  reportersMap : List (String × Reporter) := []
  selfNodeStatus : Option NodeStatusReport := none
  selfPipeline : PipelineMap := .empty

/-- The orders in which a call of `collectReports` ranges over its two maps. -/
structure Ranges where
  reporters : List Reporter
  pipelines : List PipelineReport → List PipelineReport

namespace SelfMonitor

def register (m : SelfMonitor) (name : String) (reporter : Reporter) :
    Except String SelfMonitor :=
  if name ∈ m.reportersMap.map Prod.fst then .error "reporter already registered"
  else .ok { m with reportersMap := m.reportersMap ++ [(name, reporter)] }

def reporters (m : SelfMonitor) : List Reporter := m.reportersMap.map Prod.snd

def takeReport (m : SelfMonitor) (report : Report) : SelfMonitor :=
  { m with
    selfNodeStatus := report.nodeReport.or m.selfNodeStatus
    selfPipeline := report.pipelineReport.elim m.selfPipeline m.selfPipeline.store }

/-- The function that `collectReports` passes to `Range`. Every changed reporter starts with a new
map of pipelines. -/
def visit (m : SelfMonitor) (reporter : Reporter) : SelfMonitor :=
  if reporter.isChanged = false then m
  else reporter.getReports.foldl takeReport { m with selfPipeline := .empty }

def getAllPipelineReports (m : SelfMonitor) (range : List PipelineReport → List PipelineReport) :
    List PipelineReport :=
  range m.selfPipeline.reports

/-- `collectReports`; `none` where `selfNodeStatus` is nil at its end. -/
def collectReports (m : SelfMonitor) (ranges : Ranges) : Option SelfMonitor := do
  let m := ranges.reporters.foldl visit m
  let status ← m.selfNodeStatus
  return { m with
    selfNodeStatus := some { status with pipelines := m.getAllPipelineReports ranges.pipelines } }

def pipelines (m : SelfMonitor) : List PipelineReport :=
  m.selfNodeStatus.elim [] NodeStatusReport.pipelines

end SelfMonitor

/-- One report for every PgId that a changed reporter has reported. -/
structure Complete (rs : List Reporter) (ps : List PipelineReport) : Prop where
  nodup : (ps.map PipelineReport.pgId).Nodup
  reported : ∀ pg, pg ∈ ps.map PipelineReport.pgId ↔ ∃ r ∈ changed rs, pg ∈ r.pgIds

theorem Complete.perm {rs : List Reporter} {ps qs : List PipelineReport} (h : Complete rs ps)
    (hp : qs.Perm ps) : Complete rs qs where
  nodup := (hp.map _).nodup_iff.mpr h.nodup
  reported pg := (hp.map _).mem_iff.trans (h.reported pg)

structure Ranges.Over (rs : List Reporter) (ranges : Ranges) : Prop where
  reporters : ranges.reporters.Perm rs
  pipelines : ∀ ps, (ranges.pipelines ps).Perm ps

namespace SelfMonitor

def OrderFree (m : SelfMonitor) : Prop :=
  ∀ a b : Ranges, a.Over m.reporters → b.Over m.reporters →
    ∃ ma mb, m.collectReports a = some ma ∧ m.collectReports b = some mb ∧
      ma.pipelines.Perm mb.pipelines ∧ Complete m.reporters ma.pipelines

/-- There is a status to put the pipelines into, no old pipeline stands in for the answers of
reporters that have not changed, and a reporter with pipelines is the only one that has changed. -/
structure Lone (m : SelfMonitor) : Prop where
  status : m.selfNodeStatus.isSome ∨
    ∃ r ∈ changed m.reporters, ∃ report ∈ r.getReports, report.nodeReport.isSome
  unchanged : changed m.reporters = [] → m.selfPipeline.reports = []
  single : (∃ r ∈ changed m.reporters, r.pgIds ≠ []) → (changed m.reporters).length = 1

variable {m : SelfMonitor}

theorem selfPipeline_foldl_takeReport (m : SelfMonitor) (reports : List Report) :
    (reports.foldl takeReport m).selfPipeline =
      (reports.filterMap Report.pipelineReport).foldl PipelineMap.store m.selfPipeline := by
  induction reports generalizing m with
  | nil => rfl
  | cons report reports ih =>
    rw [List.foldl_cons, ih]
    cases h : report.pipelineReport <;> simp [takeReport, h]

theorem changed_concat (order : List Reporter) (r : Reporter) :
    changed (order ++ [r]) = changed order ++ if r.isChanged then [r] else [] := by
  cases hr : r.isChanged <;> simp [changed, hr]

/-- The last changed reporter decides which pipelines there are. -/
theorem selfPipeline_foldl_visit (m : SelfMonitor) (order : List Reporter) :
    (order.foldl visit m).selfPipeline =
      (changed order).getLast?.elim m.selfPipeline fun r => .ofReports r.pipelines := by
  induction order using List.reverseRecOn with
  | nil => rfl
  | append_singleton order r ih =>
    rw [List.foldl_append, List.foldl_cons, List.foldl_nil, visit, changed_concat]
    cases hr : r.isChanged with
    | false =>
      rw [if_pos rfl, if_neg Bool.false_ne_true, List.append_nil]
      exact ih
    | true =>
      rw [if_neg (by simp), if_pos rfl, List.getLast?_concat, selfPipeline_foldl_takeReport]
      rfl

theorem isSome_foldl_takeReport (m : SelfMonitor) (reports : List Report) :
    (reports.foldl takeReport m).selfNodeStatus.isSome ↔
      m.selfNodeStatus.isSome ∨ ∃ report ∈ reports, report.nodeReport.isSome := by
  induction reports generalizing m with
  | nil => simp
  | cons report reports ih =>
    rw [List.foldl_cons, ih]
    simp only [takeReport, Option.isSome_or, Bool.or_eq_true, List.exists_mem_cons_iff]
    tauto

theorem isSome_foldl_visit (m : SelfMonitor) (order : List Reporter) :
    (order.foldl visit m).selfNodeStatus.isSome ↔ m.selfNodeStatus.isSome ∨
      ∃ r ∈ changed order, ∃ report ∈ r.getReports, report.nodeReport.isSome := by
  induction order generalizing m with
  | nil => simp [changed]
  | cons r order ih =>
    rw [List.foldl_cons, ih, visit, changed, changed, List.filter_cons]
    cases hr : r.isChanged with
    | false => simp
    | true =>
      rw [if_neg (by simp), isSome_foldl_takeReport, if_pos rfl, List.exists_mem_cons_iff, or_assoc]

theorem changed_perm {rs order : List Reporter} (h : order.Perm rs) :
    (changed order).Perm (changed rs) := h.filter _

def left (m : SelfMonitor) (ranges : Ranges) : List PipelineReport :=
  ranges.pipelines ((changed ranges.reporters).getLast?.elim m.selfPipeline
    fun r => .ofReports r.pipelines).reports

theorem collectReports_iff {ranges : Ranges} {P : List PipelineReport → Prop} :
    (∃ m', m.collectReports ranges = some m' ∧ P m'.pipelines) ↔
      (m.selfNodeStatus.isSome ∨ ∃ r ∈ changed ranges.reporters, ∃ report ∈ r.getReports,
        report.nodeReport.isSome) ∧ P (m.left ranges) := by
  rw [← isSome_foldl_visit, left, ← selfPipeline_foldl_visit, collectReports]
  cases hs : (ranges.reporters.foldl visit m).selfNodeStatus with
  | none => simp
  | some status => simp [pipelines, getAllPipelineReports]

theorem left_perm {ranges : Ranges} {rs : List Reporter} (h : ranges.Over rs) :
    (m.left ranges).Perm ((changed ranges.reporters).getLast?.elim m.selfPipeline
      fun r => .ofReports r.pipelines).reports :=
  h.pipelines _

theorem pgIds_nil_iff (r : Reporter) : r.pgIds = [] ↔ r.pipelines = [] := List.map_eq_nil_iff

theorem Lone.left_eq_nil (h : m.Lone) (hlen : (changed m.reporters).length ≠ 1) {ranges : Ranges}
    (hr : ranges.Over m.reporters) : m.left ranges = [] := by
  have hnone : ∀ r ∈ changed m.reporters, r.pipelines = [] := by
    intro r hmem
    by_contra hne
    exact hlen (h.single ⟨r, hmem, fun hnil => hne ((pgIds_nil_iff r).mp hnil)⟩)
  have hperm := changed_perm hr.reporters
  have hleft := m.left_perm hr
  cases hlast : (changed ranges.reporters).getLast? with
  | none =>
    rw [List.getLast?_eq_none_iff] at hlast
    rw [hlast] at hperm hleft
    rw [List.getLast?_nil, Option.elim_none, h.unchanged hperm.nil_eq.symm] at hleft
    exact hleft.eq_nil
  | some r =>
    have hmem := hperm.mem_iff.mp (List.mem_of_getLast? hlast)
    rw [hlast, Option.elim_some, hnone r hmem] at hleft
    exact hleft.eq_nil

theorem Lone.left_of_single (h : (changed m.reporters).length = 1) :
    ∃ r, changed m.reporters = [r] ∧ ∀ ranges : Ranges, ranges.Over m.reporters →
      (m.left ranges).Perm (PipelineMap.ofReports r.pipelines).reports := by
  obtain ⟨r, hr⟩ := List.length_eq_one_iff.mp h
  refine ⟨r, hr, fun ranges hover => ?_⟩
  have hleft := m.left_perm hover
  have hchanged : changed ranges.reporters = [r] :=
    List.perm_singleton.mp (hr ▸ changed_perm hover.reporters)
  rwa [hchanged] at hleft

theorem Lone.status_over (h : m.Lone) {ranges : Ranges} (hr : ranges.Over m.reporters) :
    m.selfNodeStatus.isSome ∨ ∃ r ∈ changed ranges.reporters, ∃ report ∈ r.getReports,
      report.nodeReport.isSome := by
  refine h.status.imp_right fun ⟨r, hmem, hreport⟩ => ?_
  exact ⟨r, (changed_perm hr.reporters).mem_iff.mpr hmem, hreport⟩

/-- Where a reporter with pipelines is the only one that has changed, all its pipelines are left,
whatever the order. -/
theorem Lone.left_complete (h : m.Lone) :
    ∃ ps, Complete m.reporters ps ∧
      ∀ ranges : Ranges, ranges.Over m.reporters → (m.left ranges).Perm ps := by
  by_cases hlen : (changed m.reporters).length = 1
  · obtain ⟨r, hr, hleft⟩ := left_of_single hlen
    refine ⟨_, ⟨(PipelineMap.ofReports r.pipelines).nodup, fun pg => ?_⟩, hleft⟩
    simp only [hr, List.mem_singleton, exists_eq_left]
    exact PipelineMap.mem_pgIds_ofReports r.pipelines pg
  · refine ⟨[], ⟨List.nodup_nil, fun pg => ?_⟩, fun ranges hr => ?_⟩
    · refine iff_of_false List.not_mem_nil fun ⟨r, hmem, hpg⟩ => hlen (h.single ⟨r, hmem, ?_⟩)
      exact List.ne_nil_of_mem hpg
    · rw [h.left_eq_nil hlen hr]

/-- An order that asks a changed reporter last, after another one. -/
theorem exists_order {rs : List Reporter} {r : Reporter} (hr : r ∈ changed rs)
    (hlen : (changed rs).length ≠ 1) :
    ∃ r' l, r'.isChanged ∧ rs.Perm (r :: (l ++ [r'])) := by
  have hmem := List.mem_of_mem_filter hr
  have hperm := List.perm_cons_erase hmem
  have hcount := (changed_perm hperm).length_eq
  have hchanged : r.isChanged = true := (List.mem_filter.mp hr).2
  rw [changed, changed, List.filter_cons, if_pos hchanged, List.length_cons] at hcount
  have hpos : 0 < ((rs.erase r).filter Reporter.isChanged).length := by
    rw [changed] at hlen
    omega
  obtain ⟨r', hr'⟩ := List.exists_mem_of_length_pos hpos
  obtain ⟨hr'mem, hr'changed⟩ := List.mem_filter.mp hr'
  refine ⟨r', (rs.erase r).erase r', hr'changed, hperm.trans (List.Perm.cons r ?_)⟩
  exact (List.perm_cons_erase hr'mem).trans (List.perm_append_singleton r' _).symm

theorem OrderFree.lone (h : m.OrderFree)
    (hdistinct : m.reporters.Pairwise fun r r' => r.pgIds.Disjoint r'.pgIds) : m.Lone := by
  have hall : ∀ ranges : Ranges, ranges.Over m.reporters →
      (m.selfNodeStatus.isSome ∨ ∃ r ∈ changed ranges.reporters, ∃ report ∈ r.getReports,
        report.nodeReport.isSome) ∧ Complete m.reporters (m.left ranges) := by
    intro ranges hr
    rw [← collectReports_iff]
    obtain ⟨m', -, hm', -, -, hcomplete⟩ := h ranges ranges hr hr
    exact ⟨m', hm', hcomplete⟩
  have hplain := hall ⟨m.reporters, id⟩ ⟨List.Perm.refl _, fun _ => List.Perm.refl _⟩
  refine ⟨hplain.1, fun hnone => ?_, fun ⟨r, hr, hne⟩ => ?_⟩
  · have hreported := hplain.2.reported
    simp only [left, hnone, List.getLast?_nil, Option.elim_none, id, List.not_mem_nil, false_and,
      exists_false, iff_false] at hreported
    exact List.map_eq_nil_iff.mp (List.eq_nil_iff_forall_not_mem.mpr hreported)
  · by_contra hlen
    obtain ⟨r', l, hr', hperm⟩ := exists_order hr hlen
    -- the reporter that is asked last drops the pipelines of the first one
    obtain ⟨pg, hpg⟩ := List.exists_mem_of_ne_nil _ hne
    have hlast := (hall ⟨r :: (l ++ [r']), id⟩
      ⟨hperm.symm, fun _ => List.Perm.refl _⟩).2.reported pg
    have hdisjoint : r.pgIds.Disjoint r'.pgIds := by
      have hpair := hperm.pairwise hdistinct fun h => h.symm
      exact (List.pairwise_cons.mp hpair).1 r' (by simp)
    have hchanged : (changed (r :: (l ++ [r']))).getLast? = some r' := by
      rw [← List.cons_append, changed_concat, if_pos hr', List.getLast?_concat]
    simp only [left, hchanged, Option.elim_some, id] at hlast
    have hmem := hlast.mpr ⟨r, hr, hpg⟩
    exact hdisjoint hpg ((PipelineMap.mem_pgIds_ofReports r'.pipelines pg).mp hmem)

theorem Lone.orderFree (h : m.Lone) : m.OrderFree := by
  intro a b ha hb
  obtain ⟨ps, hcomplete, hleft⟩ := h.left_complete
  have hcollect : ∀ ranges : Ranges, ranges.Over m.reporters →
      ∃ m', m.collectReports ranges = some m' ∧ m'.pipelines.Perm ps := fun ranges hr =>
    (collectReports_iff (P := fun qs => qs.Perm ps)).mpr ⟨h.status_over hr, hleft ranges hr⟩
  obtain ⟨ma, hma, hpa⟩ := hcollect a ha
  obtain ⟨mb, hmb, hpb⟩ := hcollect b hb
  exact ⟨ma, mb, hma, hmb, hpa.trans hpb.symm, hcomplete.perm hpa⟩

/-- For reporters with distinct PgIds, `collectReports` leaves the same pipelines in every order,
and all that changed reporters have reported, exactly if a reporter with pipelines is the only one
that has changed. -/
theorem orderFree_iff_lone (m : SelfMonitor)
    (hdistinct : m.reporters.Pairwise fun r r' => r.pgIds.Disjoint r'.pgIds) :
    m.OrderFree ↔ m.Lone :=
  ⟨fun h => h.lone hdistinct, Lone.orderFree⟩

end SelfMonitor

end Ecos.Watcher

namespace Ecos.Alaya
open Watcher

/-- What `getPipelineReport` reads of a raft node. -/
structure RaftStatus where
  lead : UInt64
  votersID : List UInt64
  /-- the nodes of its pipeline -/
  raftId : List UInt64
  deriving DecidableEq, Repr

/-- The state in a report; `none` where the first node of an empty pipeline is asked for. -/
def RaftStatus.state (node : RaftStatus) : Option PipelineState :=
  if node.lead = 0 then some .ERROR
  else if node.votersID.length < node.raftId.length then some .DOWN_GRADE
  else node.raftId.head?.map fun first => if node.lead ≠ first then .CHANGING else .OK

/-- `getPipelineReport`, given what `Load` finds. -/
def getPipelineReport (pgID : UInt64) : Option RaftStatus → Option Report
  | some node => node.state.map fun state =>
    { reportType := .ADD, pipelineReport := some ⟨pgID, node.votersID, node.lead, state⟩ }
  | none => some { reportType := .DELETE, pipelineReport := some ⟨pgID, [], 0, .UNKNOWN⟩ }

/-- `GetReports`. A raft node may be gone by the time it is asked for. -/
def getReports (nodes : List (UInt64 × Option RaftStatus)) : Option (List Report) :=
  nodes.mapM fun x => getPipelineReport x.1 x.2

theorem pgId_getPipelineReport {pgID : UInt64} {node : Option RaftStatus} {report : Report}
    (h : getPipelineReport pgID node = some report) :
    ∃ p, report.pipelineReport = some p ∧ p.pgId = pgID := by
  cases node with
  | none =>
    cases h
    exact ⟨_, rfl, rfl⟩
  | some node =>
    obtain ⟨state, -, rfl⟩ := Option.map_eq_some_iff.mp h
    exact ⟨_, rfl, rfl⟩

/-- Alaya reports every placement group it has a raft node of. -/
theorem pgIds_getReports {nodes : List (UInt64 × Option RaftStatus)} {reports : List Report}
    (h : getReports nodes = some reports) :
    (Reporter.mk true reports).pgIds = nodes.map Prod.fst := by
  induction nodes generalizing reports with
  | nil =>
    cases h
    rfl
  | cons x nodes ih =>
    simp only [getReports, List.mapM_cons, bind, Option.bind_eq_some_iff] at h
    obtain ⟨report, hreport, rest, hrest, hcons⟩ := h
    cases hcons
    obtain ⟨p, hp, hpg⟩ := pgId_getPipelineReport hreport
    have hids := ih hrest
    simp only [Reporter.pgIds, Reporter.pipelines] at hids ⊢
    rw [List.filterMap_cons_some hp, List.map_cons, List.map_cons, hids, hpg]

end Ecos.Alaya

namespace Ecos.Watcher

/-- `StatusReporter`, which always has the node's status and nothing else. -/
def statusReporter (status : NodeStatusReport) : Reporter :=
  ⟨true, [{ reportType := .UPDATE, nodeReport := some status }]⟩

def alayaReporter (nodes : List (UInt64 × Option Alaya.RaftStatus)) : Reporter :=
  ⟨true, (Alaya.getReports nodes).getD []⟩

def edgeNode (status : NodeStatusReport) (nodes : List (UInt64 × Option Alaya.RaftStatus)) :
    SelfMonitor where
  reportersMap :=
    [("status_reporter", statusReporter status), ("alaya", alayaReporter nodes)]

theorem register_edgeNode (status : NodeStatusReport)
    (nodes : List (UInt64 × Option Alaya.RaftStatus)) :
    (({} : SelfMonitor).register "status_reporter" (statusReporter status)).bind
      (·.register "alaya" (alayaReporter nodes)) = .ok (edgeNode status nodes) := rfl

/-- An edge node with a placement group loses its pipelines in one of the two orders. -/
theorem edgeNode_not_orderFree (status : NodeStatusReport)
    {nodes : List (UInt64 × Option Alaya.RaftStatus)} (hne : nodes ≠ [])
    (h : (Alaya.getReports nodes).isSome) : ¬(edgeNode status nodes).OrderFree := by
  obtain ⟨reports, hreports⟩ := Option.isSome_iff_exists.mp h
  have hids : (alayaReporter nodes).pgIds = nodes.map Prod.fst := by
    rw [alayaReporter, hreports]
    exact Alaya.pgIds_getReports hreports
  intro hfree
  have hlone := hfree.lone (List.pairwise_pair.mpr (List.disjoint_nil_left _))
  have hlen : (changed (edgeNode status nodes).reporters).length = 2 := rfl
  rw [hlone.single ⟨alayaReporter nodes, by simp [edgeNode, SelfMonitor.reporters, changed,
    statusReporter, alayaReporter], by simpa [hids] using hne⟩] at hlen
  exact absurd hlen (by decide)

def oneGroup : List (UInt64 × Option Alaya.RaftStatus) := [(7, some ⟨1, [1, 2], [1, 2]⟩)]

def alayaOnly : SelfMonitor where
  reportersMap := [("alaya", alayaReporter oneGroup)]
  selfNodeStatus := some ⟨1, .ONLINE, []⟩

theorem orderFree_alayaOnly :
    ((alayaOnly.collectReports ⟨[alayaReporter oneGroup], id⟩).map SelfMonitor.pipelines =
        some [⟨7, [1, 2], 1, .OK⟩]) ∧ alayaOnly.OrderFree :=
  ⟨by decide, (SelfMonitor.orderFree_iff_lone alayaOnly (List.pairwise_singleton _ _)).mpr
    ⟨.inl rfl, fun h => absurd h (by decide), fun _ => rfl⟩⟩

/-- The report is there in one order and not in the other. -/
theorem last_reporter_wins :
    ((edgeNode ⟨1, .ONLINE, []⟩ oneGroup).collectReports
        ⟨[statusReporter ⟨1, .ONLINE, []⟩, alayaReporter oneGroup], id⟩).map
          SelfMonitor.pipelines = some [⟨7, [1, 2], 1, .OK⟩] ∧
      ((edgeNode ⟨1, .ONLINE, []⟩ oneGroup).collectReports
        ⟨[alayaReporter oneGroup, statusReporter ⟨1, .ONLINE, []⟩], id⟩).map
          SelfMonitor.pipelines = some [] ∧
      ¬(edgeNode ⟨1, .ONLINE, []⟩ oneGroup).OrderFree :=
  ⟨by decide, by decide, edgeNode_not_orderFree _ (by decide) (by decide)⟩

end Ecos.Watcher

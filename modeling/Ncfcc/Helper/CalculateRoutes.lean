import Ncfcc.Helper.GlobalRouting

/-! The next hops that `CalculateRoutes` leaves at a node. A face gets the cost of the
last origin behind it in the order of the distance map, in metrics of 16 bits. -/
namespace Ncfcc.Helper
open Ncfcc.Library Ncfcc.Nfd.Table
variable {Router Face : Type}

noncomputable def Topology.metricTo (topology : Topology Router Face) (source target : Router) : Nat :=
  leastCost topology.incidencies topology.faceMetric source target

noncomputable def Topology.narrowTo (topology : Topology Router Face) (source target : Router) : Nat :=
  leastCost topology.incidencies topology.narrowMetric source target

structure Origin (topology : Topology Router Face) (source : Router) (name : Name) (vertex : Router) : Prop where
  vertex_mem : vertex ∈ topology.vertices
  other : vertex ≠ source
  announced : name ∈ topology.localPrefixes vertex
  connected : Connected topology.incidencies source vertex

def StartsLeast (topology : Topology Router Face) (source target : Router) (face : Face) : Prop :=
  ∃ next rest, IsPath topology.incidencies source ((some face,next) :: rest) target ∧
    pathCost topology.faceMetric ((some face,next) :: rest) = topology.metricTo source target

/-- The next hops for a prefix are right for the faces found towards its origins. -/
structure Routed (topology : Topology Router Face) (source : Router) (name : Name) (route : Router → Option Face)
    (hops : List (NextHop Face)) : Prop where
  contributes : ∀ origin, Origin topology source name origin →
    ∃ face, route origin = some face ∧ StartsLeast topology source origin face ∧ ∃ hop ∈ hops, hop.face = face
  only : ∀ hop ∈ hops, ∃ origin, Origin topology source name origin ∧ route origin = some hop.face
  single : (hops.map NextHop.face).Nodup
  cost : ∀ hop ∈ hops, IsLeast {metric | ∃ origin, Origin topology source name origin ∧
    route origin = some hop.face ∧ topology.metricTo source origin = metric} hop.cost

def LastWith {α : Type} (property : α → Prop) (list : List α) (element : α) : Prop :=
  property element ∧ ∃ before after, list = before ++ element :: after ∧ ∀ later ∈ after, ¬property later

/-- The last origin of the map behind a face. -/
def LastBehind (topology : Topology Router Face) (order : List Router) (source : Router) (name : Name)
    (route : Router → Option Face) (face : Face) (origin : Router) : Prop :=
  LastWith (fun vertex => Origin topology source name vertex ∧ route vertex = some face) order origin

/-- The 16 bits of a metric lose nothing that matters for a prefix. -/
structure Faithful (topology : Topology Router Face) (order : List Router) (source : Router) (name : Name)
    (route : Router → Option Face) : Prop where
  inRange : ∀ origin, Origin topology source name origin → topology.narrowTo source origin < 2^16 - 1
  undistorted : ∀ origin face, Origin topology source name origin → route origin = some face →
    StartsLeast topology source origin face
  lastLeast : ∀ origin face, LastBehind topology order source name route face origin →
    IsLeast {metric | ∃ origin, Origin topology source name origin ∧ route origin = some face ∧
      topology.metricTo source origin = metric} (topology.narrowTo source origin)

/-- The same for metrics that fit 16 bits: origins are in range and the last behind a face is the nearest. -/
structure Nearest (topology : Topology Router Face) (order : List Router) (source : Router) (name : Name)
    (route : Router → Option Face) : Prop where
  inRange : ∀ origin, Origin topology source name origin → topology.metricTo source origin < 2^16 - 1
  lastNearest : ∀ origin face, LastBehind topology order source name route face origin →
    ∀ other, Origin topology source name other → route other = some face →
      topology.metricTo source origin ≤ topology.metricTo source other

section
variable {α : Type} {property : α → Prop} {list : List α} {element last : α}

private theorem lastWith_concat (holds : property last) : LastWith property (list ++ [last]) element ↔ element = last := by
  constructor
  · rintro ⟨-,before,after,split,silent⟩
    rcases List.eq_nil_or_concat' after with rfl | ⟨front,final,rfl⟩
    · exact (List.singleton_inj.mp (List.append_inj' split rfl).2).symm
    · rw [← List.cons_append,← List.append_assoc] at split
      exact absurd (List.singleton_inj.mp (List.append_inj' split rfl).2 ▸ holds) (silent final (by simp))
  · rintro rfl
    exact ⟨holds,list,[],rfl,by simp⟩

private theorem lastWith_concat_of_not (fails : ¬property last) :
    LastWith property (list ++ [last]) element ↔ LastWith property list element := by
  constructor
  · rintro ⟨holds,before,after,split,silent⟩
    rcases List.eq_nil_or_concat' after with rfl | ⟨front,final,rfl⟩
    · exact absurd (List.singleton_inj.mp (List.append_inj' split rfl).2 ▸ holds) fails
    · rw [← List.cons_append,← List.append_assoc] at split
      exact ⟨holds,before,front,(List.append_inj' split rfl).1,fun later inside => silent later (by simp [inside])⟩
  · rintro ⟨holds,before,after,rfl,silent⟩
    refine ⟨holds,before,after ++ [last],by simp,?_⟩
    intro later inside
    rcases List.mem_append.mp inside with earlier | final
    · exact silent later earlier
    · rw [List.mem_singleton.mp final]
      exact fails

theorem LastWith.mem (found : LastWith property list element) : element ∈ list := by
  obtain ⟨-,before,after,rfl,-⟩ := found
  simp

theorem exists_lastWith (inside : element ∈ list) (holds : property element) :
    ∃ last, LastWith property list last := by
  induction list using List.reverseRecOn with
  | nil => cases inside
  | append_singleton front final ih =>
    by_cases here : property final
    · exact ⟨final,(lastWith_concat here).mpr rfl⟩
    · rcases List.mem_append.mp inside with earlier | at_end
      · obtain ⟨last,found⟩ := ih earlier
        exact ⟨last,(lastWith_concat_of_not here).mpr found⟩
      · exact absurd (List.mem_singleton.mp at_end ▸ holds) here

private theorem lastWith_congr {other : α → Prop} (same : ∀ element ∈ list, property element ↔ other element) :
    LastWith property list element ↔ LastWith other list element := by
  constructor
  · rintro ⟨holds,before,after,rfl,silent⟩
    refine ⟨(same element (by simp)).mp holds,before,after,rfl,?_⟩
    intro later inside
    exact mt (same later (by simp [inside])).mpr (silent later inside)
  · rintro ⟨holds,before,after,rfl,silent⟩
    refine ⟨(same element (by simp)).mpr holds,before,after,rfl,?_⟩
    intro later inside
    exact mt (same later (by simp [inside])).mp (silent later inside)

end

/-! The distances that Dijkstra's algorithm returns. -/

section
variable (topology : Topology Router Face)

private theorem foldl_metric (path : List (Option Face × Router)) (weight : Weight Face) (small : weight.metric < 2^32) :
    (path.foldl (fun weight step => weightCombine weight (topology.edgeWeight step.1)) weight).metric =
      (weight.metric + pathCost topology.narrowMetric path) % 2^32 := by
  induction path generalizing weight with
  | nil => exact (Nat.mod_eq_of_lt small).symm
  | cons step rest ih =>
    have combined : (weightCombine weight (topology.edgeWeight step.1)).metric =
        (weight.metric + topology.narrowMetric step.1) % 2^32 := by
      unfold weightCombine
      split <;> rfl
    rw [List.foldl_cons,ih _ (combined ▸ Nat.mod_lt _ (by decide)),combined,pathCost_cons,Nat.mod_add_mod,
      Nat.add_assoc]

private theorem foldl_face (path : List (Option Face × Router)) (weight : Weight Face) (face : Face)
    (started : weight.face = some face) :
    (path.foldl (fun weight step => weightCombine weight (topology.edgeWeight step.1)) weight).face = some face := by
  induction path generalizing weight with
  | nil => exact started
  | cons step rest ih =>
    apply ih
    dsimp only [weightCombine]
    rw [started]

theorem combined_metric (path : List (Option Face × Router)) :
    (topology.combined path).metric = pathCost topology.narrowMetric path % 2^32 := by
  rw [Topology.combined,foldl_metric topology path weightZero (Nat.two_pow_pos 32)]
  simp [weightZero]

theorem combined_face (face : Face) (next : Router) (rest : List (Option Face × Router)) :
    (topology.combined ((some face,next) :: rest)).face = some face := foldl_face topology rest _ face rfl

end

section
variable {topology : Topology Router Face} {source : Router} {distances : Router → Weight Face}

/-- A path to another vertex starts with a face. -/
private theorem first_face (pointToPoint : ∀ router, ∀ step ∈ topology.incidencies router, step.1 ≠ none) {vertex : Router}
    (other : vertex ≠ source) {path : List (Option Face × Router)} (isPath : IsPath topology.incidencies source path vertex) :
    ∃ face next rest, path = (some face,next) :: rest := by
  cases path with
  | nil => exact absurd isPath (Ne.symm other)
  | cons step rest =>
    obtain ⟨edge,next⟩ := step
    cases edge with
    | none => exact absurd rfl (pointToPoint source _ isPath.1)
    | some face => exact ⟨face,next,rest,rfl⟩

/-- A vertex with a face is at its least narrow metric, and a path of that metric starts with the face. -/
theorem distance_of_face (pointToPoint : ∀ router, ∀ step ∈ topology.incidencies router, step.1 ≠ none)
    (shortest : ShortestPaths topology source distances) {vertex : Router} {face : Face} (other : vertex ≠ source)
    (reached : (distances vertex).face = some face) :
    Connected topology.incidencies source vertex ∧ (distances vertex).metric = topology.narrowTo source vertex ∧
      topology.narrowTo source vertex < 2^16 - 1 ∧
      ∃ next rest, IsPath topology.incidencies source ((some face,next) :: rest) vertex ∧
        pathCost topology.narrowMetric ((some face,next) :: rest) = topology.narrowTo source vertex := by
  rcases shortest.attained vertex other with infinite | ⟨below,path,isPath,small,same⟩
  · rw [infinite] at reached
    cases reached
  · have metric : (distances vertex).metric = pathCost topology.narrowMetric path := by
      rw [same,combined_metric,Nat.mod_eq_of_lt small]
    have least : topology.narrowTo source vertex = pathCost topology.narrowMetric path := by
      apply leastCost_eq isPath
      intro rival isRival
      by_contra closer
      have fits : pathCost topology.narrowMetric rival < 2^32 := by omega
      have bound := of_decide_eq_false (shortest.least vertex rival other isRival fits)
      rw [combined_metric,Nat.mod_eq_of_lt fits,metric] at bound
      omega
    refine ⟨⟨path,isPath⟩,metric.trans least.symm,?_,?_⟩
    · rw [least,← metric]
      exact of_decide_eq_true below
    · obtain ⟨first,next,rest,rfl⟩ := first_face pointToPoint other isPath
      rw [same,combined_face] at reached
      cases reached
      exact ⟨next,rest,isPath,least.symm⟩

private theorem face_of_inRange (pointToPoint : ∀ router, ∀ step ∈ topology.incidencies router, step.1 ≠ none)
    (shortest : ShortestPaths topology source distances) {vertex : Router} (other : vertex ≠ source)
    (connected : Connected topology.incidencies source vertex) (near : topology.narrowTo source vertex < 2^16 - 1) :
    ∃ face, (distances vertex).face = some face := by
  rcases shortest.attained vertex other with infinite | ⟨-,path,isPath,-,same⟩
  · obtain ⟨path,isPath,least⟩ : ∃ path, IsPath topology.incidencies source path vertex ∧
        pathCost topology.narrowMetric path = topology.narrowTo source vertex := exists_leastCost connected
    have fits : pathCost topology.narrowMetric path < 2^32 := by omega
    have bound := of_decide_eq_false (shortest.least vertex path other isPath fits)
    rw [combined_metric,Nat.mod_eq_of_lt fits,infinite,least] at bound
    exact absurd near bound
  · obtain ⟨first,next,rest,rfl⟩ := first_face pointToPoint other isPath
    rw [same]
    exact ⟨first,combined_face topology first next rest⟩

def Announces (topology : Topology Router Face) (distances : Router → Weight Face) (source : Router) (name : Name)
    (vertex : Router) (face : Face) : Prop :=
  vertex ≠ source ∧ name ∈ topology.localPrefixes vertex ∧ (distances vertex).face = some face

private theorem announces_iff (pointToPoint : ∀ router, ∀ step ∈ topology.incidencies router, step.1 ≠ none)
    (shortest : ShortestPaths topology source distances) (name : Name) {vertex : Router}
    (known : vertex ∈ topology.vertices) (face : Face) :
    Announces topology distances source name vertex face ↔
      Origin topology source name vertex ∧ (distances vertex).face = some face := by
  constructor
  · rintro ⟨other,announced,reached⟩
    exact ⟨⟨known,other,announced,(distance_of_face pointToPoint shortest other reached).1⟩,reached⟩
  · rintro ⟨origin,reached⟩
    exact ⟨origin.other,origin.announced,reached⟩

private theorem faithful_iff_nearest
    (pointToPoint : ∀ router, ∀ step ∈ topology.incidencies router, step.1 ≠ none)
    (shortest : ShortestPaths topology source distances) (order : List Router) (name : Name)
    (fits : ∀ face, topology.metric face < 2^16) :
    Faithful topology order source name (fun vertex => (distances vertex).face) ↔
      Nearest topology order source name fun vertex => (distances vertex).face := by
  have edges : topology.narrowMetric = topology.faceMetric := by
    funext edge
    cases edge with
    | none => rfl
    | some face => exact Nat.mod_eq_of_lt (fits face)
  have same : ∀ target, topology.narrowTo source target = topology.metricTo source target := by
    intro target
    rw [Topology.narrowTo,edges]
    rfl
  constructor
  · intro faithful
    refine ⟨?_,?_⟩
    · intro origin is_origin
      rw [← same]
      exact faithful.inRange origin is_origin
    · intro origin face last other is_other behind
      rw [← same origin]
      exact (faithful.lastLeast origin face last).2 ⟨other,is_other,behind,rfl⟩
  · intro nearest
    refine ⟨?_,?_,?_⟩
    · intro origin is_origin
      rw [same]
      exact nearest.inRange origin is_origin
    · intro origin face is_origin reached
      obtain ⟨-,-,-,next,rest,isPath,cost⟩ := distance_of_face pointToPoint shortest is_origin.other reached
      rw [edges,same] at cost
      exact ⟨next,rest,isPath,cost⟩
    · intro origin face last
      rw [same]
      refine ⟨⟨origin,last.1.1,last.1.2,rfl⟩,?_⟩
      rintro metric ⟨other,is_other,behind,rfl⟩
      exact nearest.lastNearest origin face last other is_other behind

end

/-! The FIB after the vertices of a list: the last of them that announces the prefix behind a
face gives the face its cost. -/

section
variable [DecidableEq Router] [DecidableEq Face] (topology : Topology Router Face)
  (distances : Router → Weight Face) (source : Router) (name : Name)

def costOf (metric : Nat) : Nat := if metric < 2^31 then metric else metric + (2^64 - 2^32)

theorem addRoutes_spec (names : List Name) (face : Face) (metric : Nat) (fib : Fib Face)
    (distinct : ((fib name).map NextHop.face).Nodup) :
    ((names.foldl (fun fib name => addRoute fib name face metric) fib name).map NextHop.face).Nodup ∧
      ∀ hop, hop ∈ names.foldl (fun fib name => addRoute fib name face metric) fib name ↔
        if name ∈ names ∧ hop.face = face then hop.cost = costOf metric else hop ∈ fib name := by
  induction names generalizing fib with
  | nil => exact ⟨distinct,fun hop => by simp⟩
  | cons head rest ih =>
    rw [List.foldl_cons]
    by_cases here : name = head
    · have added : addRoute fib head face metric name = addNextHop (fib name) face (costOf metric) := if_pos here
      obtain ⟨unique,members⟩ := addNextHop_spec (fib name) face (costOf metric) distinct
      rw [← added] at unique members
      obtain ⟨single,later⟩ := ih _ unique
      refine ⟨single,?_⟩
      intro hop
      rw [later hop,members hop]
      by_cases same : hop.face = face
      · simp [same,here]
      · simp [same]
    · have kept : addRoute fib head face metric name = fib name := if_neg here
      obtain ⟨single,later⟩ := ih (addRoute fib head face metric) (by rw [kept]; exact distinct)
      refine ⟨single,?_⟩
      intro hop
      rw [later hop,kept]
      simp [here]

private theorem routesTo_spec (fib : Fib Face) (vertex : Router) (distinct : ((fib name).map NextHop.face).Nodup) :
    ((routesTo topology distances source fib vertex name).map NextHop.face).Nodup ∧
      ∀ hop, (Announces topology distances source name vertex hop.face →
          (hop ∈ routesTo topology distances source fib vertex name ↔ hop.cost = costOf (distances vertex).metric)) ∧
        (¬Announces topology distances source name vertex hop.face →
          (hop ∈ routesTo topology distances source fib vertex name ↔ hop ∈ fib name)) := by
  unfold routesTo
  by_cases self : vertex = source
  · rw [if_pos self]
    exact ⟨distinct,fun hop => ⟨fun announced => absurd self announced.1,fun _ => .rfl⟩⟩
  · rw [if_neg self]
    cases reached : (distances vertex).face with
    | none =>
      refine ⟨distinct,fun hop => ⟨fun announced => ?_,fun _ => .rfl⟩⟩
      have found := announced.2.2
      rw [reached] at found
      cases found
    | some face =>
      obtain ⟨single,members⟩ :=
        addRoutes_spec name (topology.localPrefixes vertex) face (distances vertex).metric fib distinct
      refine ⟨single,fun hop => ⟨?_,?_⟩⟩
      · rintro ⟨-,announced,found⟩
        rw [reached,Option.some.injEq] at found
        rw [members hop,if_pos ⟨announced,found.symm⟩]
      · intro silent
        rw [members hop,if_neg]
        rintro ⟨announced,same⟩
        exact silent ⟨self,announced,by rw [reached,same]⟩

theorem calculateRoutes_spec (order : List Router) :
    ((calculateRoutes topology order distances source name).map NextHop.face).Nodup ∧
      ∀ hop, hop ∈ calculateRoutes topology order distances source name ↔
        ∃ vertex, LastWith (fun vertex => Announces topology distances source name vertex hop.face) order vertex ∧
          hop.cost = costOf (distances vertex).metric := by
  induction order using List.reverseRecOn with
  | nil =>
    refine ⟨List.nodup_nil,?_⟩
    intro hop
    constructor
    · intro inside
      cases inside
    · rintro ⟨vertex,last,-⟩
      cases last.mem
  | append_singleton visited vertex ih =>
    obtain ⟨distinct,members⟩ := ih
    have step : calculateRoutes topology (visited ++ [vertex]) distances source =
        routesTo topology distances source (calculateRoutes topology visited distances source) vertex := by
      simp [calculateRoutes]
    obtain ⟨single,each⟩ := routesTo_spec topology distances source name _ vertex distinct
    rw [step]
    refine ⟨single,?_⟩
    intro hop
    obtain ⟨when_announced,otherwise⟩ := each hop
    by_cases announced : Announces topology distances source name vertex hop.face
    · have last : ∀ element, LastWith (fun vertex => Announces topology distances source name vertex hop.face)
          (visited ++ [vertex]) element ↔ element = vertex := fun _ => lastWith_concat announced
      rw [when_announced announced]
      simp only [last,exists_eq_left]
    · have earlier : ∀ element, LastWith (fun vertex => Announces topology distances source name vertex hop.face)
          (visited ++ [vertex]) element ↔
            LastWith (fun vertex => Announces topology distances source name vertex hop.face) visited element :=
        fun _ => lastWith_concat_of_not announced
      rw [otherwise announced,members hop]
      simp only [earlier]

end

section
variable [DecidableEq Router] [DecidableEq Face] {topology : Topology Router Face} {order : List Router}
  {source : Router} {distances : Router → Weight Face}

private theorem mem_routes (pointToPoint : ∀ router, ∀ step ∈ topology.incidencies router, step.1 ≠ none)
    (shortest : ShortestPaths topology source distances) (listed : order.Perm topology.vertices) (name : Name)
    (hop : NextHop Face) :
    hop ∈ calculateRoutes topology order distances source name ↔
      ∃ origin, LastBehind topology order source name (fun vertex => (distances vertex).face) hop.face origin ∧
        hop.cost = topology.narrowTo source origin := by
  have same : ∀ vertex ∈ order, Announces topology distances source name vertex hop.face ↔
      Origin topology source name vertex ∧ (distances vertex).face = some hop.face :=
    fun vertex inside => announces_iff pointToPoint shortest name (listed.mem_iff.mp inside) hop.face
  rw [(calculateRoutes_spec topology distances source name order).2 hop]
  refine exists_congr fun vertex => ?_
  rw [lastWith_congr same]
  refine and_congr_right fun last => ?_
  obtain ⟨-,metric,near,-⟩ := distance_of_face pointToPoint shortest last.1.1.other last.1.2
  have small : (distances vertex).metric < 2^31 := by omega
  rw [costOf,if_pos small,metric]

private theorem routed_iff_faithful
    (pointToPoint : ∀ router, ∀ step ∈ topology.incidencies router, step.1 ≠ none)
    (shortest : ShortestPaths topology source distances) (listed : order.Perm topology.vertices) (name : Name) :
    Routed topology source name (fun vertex => (distances vertex).face)
        (calculateRoutes topology order distances source name) ↔
      Faithful topology order source name fun vertex => (distances vertex).face := by
  have members := mem_routes pointToPoint shortest listed name
  constructor
  · intro routed
    refine ⟨?_,?_,?_⟩
    · intro origin is_origin
      obtain ⟨face,reached,-⟩ := routed.contributes origin is_origin
      exact (distance_of_face pointToPoint shortest is_origin.other reached).2.2.1
    · intro origin face is_origin reached
      obtain ⟨found,same,least,-⟩ := routed.contributes origin is_origin
      rw [same] at reached
      cases reached
      exact least
    · intro origin face last
      exact routed.cost ⟨face,topology.narrowTo source origin⟩ ((members _).mpr ⟨origin,last,rfl⟩)
  · intro faithful
    refine ⟨?_,?_,(calculateRoutes_spec topology distances source name order).1,?_⟩
    · intro origin is_origin
      obtain ⟨face,reached⟩ := face_of_inRange pointToPoint shortest is_origin.other is_origin.connected
        (faithful.inRange origin is_origin)
      have both : Origin topology source name origin ∧ (distances origin).face = some face := ⟨is_origin,reached⟩
      obtain ⟨last,behind⟩ : ∃ last, LastBehind topology order source name (fun vertex => (distances vertex).face)
        face last := exists_lastWith (listed.mem_iff.mpr is_origin.vertex_mem) both
      refine ⟨face,reached,faithful.undistorted origin face is_origin reached,?_⟩
      exact ⟨⟨face,topology.narrowTo source last⟩,(members _).mpr ⟨last,behind,rfl⟩,rfl⟩
    · intro hop inside
      obtain ⟨origin,last,-⟩ := (members hop).mp inside
      exact ⟨origin,last.1⟩
    · intro hop inside
      obtain ⟨origin,last,cost⟩ := (members hop).mp inside
      rw [cost]
      exact faithful.lastLeast origin hop.face last

/-- The next hops of a prefix are right exactly when the metrics cut to 16 bits lead to its
origins as the true ones do and the last origin behind a face is at the least true metric; for
metrics that fit 16 bits, exactly when origins are below infinity and the last is the nearest. -/
theorem calculateRoutes_right_iff (topology : Topology Router Face) (order : List Router) (source : Router)
    (distances : Router → Weight Face) (name : Name)
    (pointToPoint : ∀ router, ∀ step ∈ topology.incidencies router, step.1 ≠ none)
    (listed : order.Perm topology.vertices) (shortest : ShortestPaths topology source distances) :
    (Routed topology source name (fun vertex => (distances vertex).face)
        (calculateRoutes topology order distances source name) ↔
      Faithful topology order source name fun vertex => (distances vertex).face) ∧
    ((∀ face, topology.metric face < 2^16) →
      (Routed topology source name (fun vertex => (distances vertex).face)
          (calculateRoutes topology order distances source name) ↔
        Nearest topology order source name fun vertex => (distances vertex).face)) := by
  have faithful := routed_iff_faithful pointToPoint shortest listed name
  refine ⟨faithful,?_⟩
  intro fits
  exact faithful.trans (faithful_iff_nearest pointToPoint shortest order name fits)

end

/-! Three routers in a line, each link of metric one. The second and the third announce a prefix. -/

local instance lineRouters : NeZero 3 := ⟨by decide⟩
local instance lineFaces : NeZero 4 := ⟨by decide⟩

def line : Topology (Fin 3) (Fin 4) where
  vertices := [0,1,2]
  incidencies
    | 0 => [(some 0,1)]
    | 1 => [(some 1,0),(some 2,2)]
    | 2 => [(some 3,1)]
  metric _ := 1
  localPrefixes
    | 0 => []
    | 1 => [[[97]]]
    | 2 => [[[97]]]

def lineDistances : Fin 3 → Weight (Fin 4)
  | 0 => weightZero
  | 1 => ⟨some 0,1⟩
  | 2 => ⟨some 0,2⟩

private theorem line_pointToPoint : ∀ router, ∀ step ∈ line.incidencies router, step.1 ≠ none := by decide

private theorem line_bound {target : Fin 3} {path : List (Option (Fin 4) × Fin 3)}
    (isPath : IsPath line.incidencies 0 path target) : (lineDistances target).metric ≤ pathCost line.faceMetric path := by
  have bound : (lineDistances target).metric ≤ (lineDistances 0).metric + pathCost line.faceMetric path :=
    label_le_pathCost (fun vertex => (lineDistances vertex).metric) (by decide) isPath
  exact bound.trans (by simp [lineDistances,weightZero])

private theorem line_metricTo : line.metricTo 0 1 = 1 ∧ line.metricTo 0 2 = 2 := by
  have near : IsPath line.incidencies 0 [(some 0,1)] 1 := by simp [IsPath,line]
  have far : IsPath line.incidencies 0 [(some 0,1),(some 2,2)] 2 := by simp [IsPath,line]
  exact ⟨leastCost_eq near fun _ isOther => line_bound isOther,leastCost_eq far fun _ isOther => line_bound isOther⟩

private theorem line_narrow : line.narrowMetric = line.faceMetric := by
  funext edge
  cases edge <;> rfl

private theorem line_shortest : ShortestPaths line 0 lineDistances := by
  constructor
  · intro vertex other
    right
    match vertex with
    | 0 => exact absurd rfl other
    | 1 => exact ⟨by decide,[(some 0,1)],by simp [IsPath,line],by decide,by decide⟩
    | 2 => exact ⟨by decide,[(some 0,1),(some 2,2)],by simp [IsPath,line],by decide,by decide⟩
  · intro vertex path _ isPath fits
    apply decide_eq_false
    rw [combined_metric,Nat.mod_eq_of_lt fits,Nat.not_lt,line_narrow]
    exact line_bound isPath

private theorem line_origin (vertex : Fin 3) (other : vertex ≠ 0) : Origin line 0 [[97]] vertex := by
  match vertex with
  | 0 => exact absurd rfl other
  | 1 => exact ⟨by decide,by decide,by decide,[(some 0,1)],by simp [IsPath,line]⟩
  | 2 => exact ⟨by decide,by decide,by decide,[(some 0,1),(some 2,2)],by simp [IsPath,line]⟩

/-- If the map has the nearer origin last, the face gets its metric. -/
theorem line_routes_right : Routed line 0 [[97]] (fun vertex => (lineDistances vertex).face)
    (calculateRoutes line [0,2,1] lineDistances 0 [[97]]) := by
  apply ((calculateRoutes_right_iff line [0,2,1] 0 lineDistances [[97]] line_pointToPoint (by decide)
    line_shortest).2 (by decide)).mpr
  refine ⟨?_,?_⟩
  · intro origin is_origin
    match origin with
    | 0 => exact absurd rfl is_origin.other
    | 1 =>
      rw [line_metricTo.1]
      decide
    | 2 =>
      rw [line_metricTo.2]
      decide
  · intro origin face last other is_other behind
    have here : origin = 1 := by
      have nearest : Origin line 0 [[97]] 1 ∧ (lineDistances 1).face = some face := by
        refine ⟨line_origin 1 (by decide),?_⟩
        match other with
        | 0 => exact absurd rfl is_other.other
        | 1 => exact behind
        | 2 => exact behind
      have split : LastWith (fun vertex => Origin line 0 [[97]] vertex ∧ (lineDistances vertex).face = some face)
        ([0,2] ++ [1]) origin := last
      refine (lastWith_concat ?_).mp split
      exact nearest
    rw [here,line_metricTo.1]
    match other with
    | 0 => exact absurd rfl is_other.other
    | 1 => exact line_metricTo.1.ge
    | 2 =>
      rw [line_metricTo.2]
      decide

/-- If the map has the farther origin last, the face gets metric two, though the nearer origin is at one. -/
theorem line_routes_wrong : ShortestPaths line 0 lineDistances ∧
    ⟨0,2⟩ ∈ calculateRoutes line [0,1,2] lineDistances 0 [[97]] ∧ line.metricTo 0 1 = 1 ∧
    ¬Routed line 0 [[97]] (fun vertex => (lineDistances vertex).face)
      (calculateRoutes line [0,1,2] lineDistances 0 [[97]]) := by
  have farthest : LastBehind line [0,1,2] 0 [[97]] (fun vertex => (lineDistances vertex).face) 0 2 := by
    refine ⟨⟨line_origin 2 (by decide),rfl⟩,[0,1],[],rfl,?_⟩
    intro later inside
    cases inside
  have narrow : line.narrowTo 0 2 = 2 := by
    rw [Topology.narrowTo,line_narrow]
    exact line_metricTo.2
  have stored : ⟨0,2⟩ ∈ calculateRoutes line [0,1,2] lineDistances 0 [[97]] :=
    (mem_routes line_pointToPoint line_shortest (by decide) [[97]] ⟨0,2⟩).mpr ⟨2,farthest,narrow.symm⟩
  refine ⟨line_shortest,stored,line_metricTo.1,?_⟩
  intro routed
  have bound := (routed.cost _ stored).2 ⟨1,line_origin 1 (by decide),rfl,line_metricTo.1⟩
  exact absurd bound (by decide)

end Ncfcc.Helper

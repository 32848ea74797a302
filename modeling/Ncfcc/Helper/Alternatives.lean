import Ncfcc.Helper.AllPossibleRoutes
import Ncfcc.Helper.CalculateRoutes

/-! The next hops that `CalculateAllPossibleRoutes` leaves for a prefix with one origin: for each
face the least metric of a path that starts with it and does not come back. -/
namespace Ncfcc.Helper
open Ncfcc.Library Ncfcc.Nfd.Table

/-- The links that `Install` makes: those of a node have faces of network devices from its own table, and
no other vertex has them. Channels have links without faces. -/
structure InstalledNetwork (Node Router Face : Type) extends Network Node Router Face where
  nodesDistinct : nodes.Nodup
  own : ∀ node source, router node = some source → ∀ step ∈ incidencies source,
    ∃ face ∈ faceTable node, netDevice face = true ∧ step.1 = some face
  apart : ∀ node source, router node = some source → ∀ vertex, vertex ≠ source → ∀ step ∈ incidencies vertex,
    ∀ face ∈ faceTable node, step.1 ≠ some face

/-- What Dijkstra's algorithm promises with its tree of predecessors: a distance is infinity or the combined
weight of a path that visits no vertex twice, and no path combines to less. -/
structure ShortestTree {Router Face : Type} (topology : Topology Router Face) (source : Router)
    (distances : Router → Weight Face) : Prop where
  attained : ∀ vertex, vertex ≠ source → distances vertex = weightInf ∨
    weightCompare (distances vertex) weightInf = true ∧
      ∃ path, IsPath topology.incidencies source path vertex ∧ (visited source path).Nodup ∧
        pathCost topology.narrowMetric path < 2^32 ∧ distances vertex = topology.combined path
  least : ∀ vertex path, vertex ≠ source → IsPath topology.incidencies source path vertex →
    pathCost topology.narrowMetric path < 2^32 → weightCompare (topology.combined path) (distances vertex) = false

section
variable {Node Router Face : Type}

/-- A path from the other end of the face on, that does not pass through the source. -/
def Around (topology : Topology Router Face) (source target : Router) (face : Face)
    (path : List (Option Face × Router)) : Prop :=
  ∃ next, (some face,next) ∈ topology.incidencies source ∧ IsPath topology.incidencies next path target ∧
    source ∉ visited next path

structure Alternative (network : InstalledNetwork Node Router Face) (node : Node) (source target : Router)
    (hop : NextHop Face) : Prop where
  face : hop.face ∈ network.faceTable node
  netDevice : network.netDevice hop.face = true
  cost : ∃ rest, IsLeast {metric | ∃ path, Around network.toTopology source target hop.face path ∧
    pathCost network.faceMetric path = metric} rest ∧ hop.cost = network.metric hop.face + rest

/-- The metrics along a path without loops sum to less than that of a disabled face. -/
def SmallSums (topology : Topology Router Face) : Prop :=
  ∀ source path target, IsPath topology.incidencies source path target → (visited source path).Nodup →
    pathCost topology.faceMetric path < disabledMetric

private theorem narrow_eq_face {topology : Topology Router Face} {path : List (Option Face × Router)}
    (small : pathCost topology.faceMetric path < disabledMetric) :
    pathCost topology.narrowMetric path = pathCost topology.faceMetric path := by
  apply pathCost_congr
  intro step inside
  have bound : topology.faceMetric step.1 ≤ pathCost topology.faceMetric path := le_pathCost inside
  cases edge : step.1 with
  | none => rfl
  | some face =>
    rw [edge] at bound
    apply Nat.mod_eq_of_lt
    change topology.metric face ≤ _ at bound
    unfold disabledMetric at small
    omega

/-! One run of Dijkstra's algorithm. -/

section
variable {network : InstalledNetwork Node Router Face} {node : Node} {source target : Router}
  {distances : Router → Weight Face} {topology : Topology Router Face}

/-- A distance that is not infinite comes from a path that leaves the source once. -/
theorem attained_through (router : network.router node = some source)
    (same : topology.incidencies = network.incidencies) (tree : ShortestTree topology source distances)
    (other : target ≠ source) (finite : distances target ≠ weightInf) :
    ∃ face next rest, face ∈ network.faceTable node ∧ network.netDevice face = true ∧
      (some face,next) ∈ network.incidencies source ∧ IsPath network.incidencies next rest target ∧
      (visited source ((some face,next) :: rest)).Nodup ∧
      distances target = ⟨some face,pathCost topology.narrowMetric ((some face,next) :: rest)⟩ ∧
      pathCost topology.narrowMetric ((some face,next) :: rest) < 2^16 - 1 := by
  obtain ⟨below,path,isPath,simple,fits,combined⟩ := (tree.attained target other).resolve_left finite
  rw [same] at isPath
  cases path with
  | nil => exact absurd isPath (Ne.symm other)
  | cons step rest =>
    obtain ⟨edge,next⟩ := step
    obtain ⟨face,inside,device,here⟩ := network.own node source router _ isPath.1
    have here : edge = some face := here
    rw [here] at isPath simple fits combined
    have metric : (distances target).metric = pathCost topology.narrowMetric ((some face,next) :: rest) := by
      rw [combined,combined_metric,Nat.mod_eq_of_lt fits]
    refine ⟨face,next,rest,inside,device,isPath.1,isPath.2,simple,?_,?_⟩
    · rw [← metric]
      have first := combined_face topology face next rest
      rw [← combined] at first
      rw [← first]
    · rw [← metric]
      exact of_decide_eq_true below

private theorem distance_le (same : topology.incidencies = network.incidencies) (tree : ShortestTree topology source distances)
    (other : target ≠ source) {path : List (Option Face × Router)}
    (isPath : IsPath network.incidencies source path target) (small : pathCost topology.narrowMetric path < 2^16) :
    (distances target).metric ≤ pathCost topology.narrowMetric path := by
  have fits : pathCost topology.narrowMetric path < 2^32 := by omega
  have bound := of_decide_eq_false (tree.least target path other (same ▸ isPath) fits)
  rw [combined_metric,Nat.mod_eq_of_lt fits] at bound
  exact Nat.not_lt.mp bound

/-- The least of the paths around is that of one without loops. -/
theorem exists_least_around [DecidableEq Router] {face : Face} {path : List (Option Face × Router)}
    (around : Around network.toTopology source target face path) :
    ∃ next rest, IsLeast {metric | ∃ path, Around network.toTopology source target face path ∧
        pathCost network.faceMetric path = metric} (pathCost network.faceMetric rest) ∧
      (some face,next) ∈ network.incidencies source ∧ IsPath network.incidencies next rest target ∧
      (visited source ((some face,next) :: rest)).Nodup := by
  have nonempty : {metric | ∃ path, Around network.toTopology source target face path ∧
      pathCost network.faceMetric path = metric}.Nonempty := ⟨_,path,around,rfl⟩
  obtain ⟨shortest,⟨next,edge,isPath,avoids⟩,cost⟩ := Nat.sInf_mem nonempty
  obtain ⟨simple,isSimple,distinct,fewer⟩ := exists_simple isPath
  have away : source ∉ visited next simple := by
    intro inside
    exact avoids ((fewer.map Prod.snd).cons_cons next |>.subset inside)
  refine ⟨next,simple,⟨⟨simple,⟨next,edge,isSimple,away⟩,rfl⟩,?_⟩,edge,isSimple,List.nodup_cons.mpr ⟨away,distinct⟩⟩
  intro metric other
  calc pathCost network.faceMetric simple ≤ pathCost network.faceMetric shortest := pathCost_sublist fewer
    _ = sInf _ := cost
    _ ≤ metric := Nat.sInf_le other

private theorem withMetric_incidencies (network : InstalledNetwork Node Router Face) (metric : Face → Nat) :
    (network.withMetric metric).incidencies = network.incidencies := rfl

structure OnlyEnabled (network : InstalledNetwork Node Router Face) (node : Node) (face : Face) (metric : Face → Nat) :
    Prop where
  enabled : metric face = network.metric face % 2^16
  others : ∀ other ∈ network.faceTable node, other ≠ face → metric other = disabledMetric
  elsewhere : ∀ other, other ∉ network.faceTable node → metric other % 2^16 = network.metric other % 2^16

section
variable {face : Face} {metric : Face → Nat}

private theorem enabled_cost (router : network.router node = some source) (only : OnlyEnabled network node face metric)
    {next : Router} {rest : List (Option Face × Router)} (isPath : IsPath network.incidencies next rest target)
    (avoids : source ∉ visited next rest) :
    pathCost (network.withMetric metric).narrowMetric ((some face,next) :: rest) =
      pathCost network.narrowMetric ((some face,next) :: rest) := by
  have tail : pathCost (network.withMetric metric).narrowMetric rest = pathCost network.narrowMetric rest := by
    apply pathCost_congr
    intro step inside
    obtain ⟨vertex,there,leaves⟩ := isPath_leaves isPath inside
    cases edge : step.1 with
    | none => rfl
    | some other =>
      apply only.elsewhere
      intro own
      exact network.apart node source router vertex (fun same => avoids (same ▸ there)) step leaves other own edge
  rw [pathCost_cons,pathCost_cons,tail]
  congr 1
  change metric face % 2^16 = network.metric face % 2^16
  rw [only.enabled,Nat.mod_mod]

private theorem disabled_cost (only : OnlyEnabled network node face metric) {other : Face}
    (inside : other ∈ network.faceTable node) (different : other ≠ face) (next : Router)
    (rest : List (Option Face × Router)) :
    disabledMetric ≤ pathCost (network.withMetric metric).narrowMetric ((some other,next) :: rest) := by
  have first : (network.withMetric metric).narrowMetric (some other) = disabledMetric := by
    change metric other % 2^16 = disabledMetric
    rw [only.others other inside different]
    rfl
  rw [pathCost_cons,first]
  exact Nat.le_add_right _ _

/-- When the target can be reached behind the face, the distance is through the face, at the least metric. -/
theorem distance_around [DecidableEq Router] (router : network.router node = some source)
    (small : SmallSums network.toTopology) (only : OnlyEnabled network node face metric)
    (tree : ShortestTree (network.withMetric metric) source distances) (other : target ≠ source)
    {path : List (Option Face × Router)} (around : Around network.toTopology source target face path) :
    ∃ rest, IsLeast {metric | ∃ path, Around network.toTopology source target face path ∧
        pathCost network.faceMetric path = metric} rest ∧
      distances target = ⟨some face,network.metric face + rest⟩ ∧ network.metric face + rest < disabledMetric := by
  obtain ⟨next,rest,least,edge,isPath,simple⟩ := exists_least_around around
  have avoids := (List.nodup_cons.mp simple).1
  have bound := small source ((some face,next) :: rest) target ⟨edge,isPath⟩ simple
  have cost := (enabled_cost router only isPath avoids).trans (narrow_eq_face bound)
  have total : pathCost network.faceMetric ((some face,next) :: rest) =
      network.metric face + pathCost network.faceMetric rest := pathCost_cons _ _
  have near : (distances target).metric ≤ network.metric face + pathCost network.faceMetric rest := by
    have walked : IsPath network.incidencies source ((some face,next) :: rest) target := ⟨edge,isPath⟩
    rw [← total,← cost]
    refine distance_le (withMetric_incidencies network metric) tree other walked ?_
    rw [cost]
    exact bound.trans (by decide)
  rw [total] at bound
  have finite : distances target ≠ weightInf := by
    intro infinite
    rw [infinite] at near
    have wide : 2^16 - 1 ≤ network.metric face + pathCost network.faceMetric rest := near
    unfold disabledMetric at bound
    omega
  obtain ⟨first,there,tail,inside,-,leaves,isTail,tail_simple,distance,-⟩ :=
    attained_through router (withMetric_incidencies network metric) tree other finite
  rw [distance] at near
  have same : first = face := by
    by_contra different
    have wide := disabled_cost only inside different there tail
    exact absurd (wide.trans near) (Nat.not_le.mpr bound)
  subst same
  have tail_avoids := (List.nodup_cons.mp tail_simple).1
  have tail_bound := small source ((some first,there) :: tail) target ⟨leaves,isTail⟩ tail_simple
  have tail_cost := (enabled_cost router only isTail tail_avoids).trans (narrow_eq_face tail_bound)
  have tail_total : pathCost network.faceMetric ((some first,there) :: tail) =
      network.metric first + pathCost network.faceMetric tail := pathCost_cons _ _
  rw [tail_cost,tail_total] at distance near
  have lower : pathCost network.faceMetric rest ≤ pathCost network.faceMetric tail :=
    least.2 ⟨tail,⟨there,leaves,isTail,tail_avoids⟩,rfl⟩
  have equal : pathCost network.faceMetric tail = pathCost network.faceMetric rest := by
    have upper : pathCost network.faceMetric tail ≤ pathCost network.faceMetric rest := Nat.le_of_add_le_add_left near
    exact Nat.le_antisymm upper lower
  rw [equal] at distance
  exact ⟨_,least,distance,bound⟩

/-- Otherwise a distance is through a disabled face. -/
theorem distance_disabled (router : network.router node = some source) (only : OnlyEnabled network node face metric)
    (tree : ShortestTree (network.withMetric metric) source distances) (other : target ≠ source)
    (unreached : ∀ path, ¬Around network.toTopology source target face path) {first : Face}
    (through : (distances target).face = some first) : metric first = disabledMetric := by
  have finite : distances target ≠ weightInf := by
    intro infinite
    rw [infinite] at through
    cases through
  obtain ⟨start,next,rest,inside,-,leaves,isPath,simple,distance,-⟩ :=
    attained_through router (withMetric_incidencies network metric) tree other finite
  rw [distance] at through
  have here : start = first := Option.some.inj through
  rw [← here]
  apply only.others start inside
  intro same
  exact unreached rest ⟨next,same ▸ leaves,isPath,(List.nodup_cons.mp simple).1⟩

end

end

/-! The routes of one run for a prefix with one origin. -/

section
variable [DecidableEq Router] [DecidableEq Face]

/-- The loop adds a route for the prefix on the face when it comes to the vertex. -/
structure Offers (topology : Topology Router Face) (distances : Router → Weight Face) (source : Router) (name : Name)
    (vertex : Router) (face : Face) : Prop where
  other : vertex ≠ source
  announced : name ∈ topology.localPrefixes vertex
  through : (distances vertex).face = some face
  enabled : topology.metric face ≠ disabledMetric

private theorem enabledRoutesTo_spec (topology : Topology Router Face) (distances : Router → Weight Face) (source : Router)
    (name : Name) (fib : Fib Face) (vertex : Router) (distinct : ((fib name).map NextHop.face).Nodup) :
    ((enabledRoutesTo topology distances source fib vertex name).map NextHop.face).Nodup ∧
      ∀ hop, (Offers topology distances source name vertex hop.face →
          (hop ∈ enabledRoutesTo topology distances source fib vertex name ↔
            hop.cost = costOf (distances vertex).metric)) ∧
        (¬Offers topology distances source name vertex hop.face →
          (hop ∈ enabledRoutesTo topology distances source fib vertex name ↔ hop ∈ fib name)) := by
  unfold enabledRoutesTo
  by_cases self : vertex = source
  · rw [if_pos self]
    exact ⟨distinct,fun hop => ⟨fun offers => absurd self offers.other,fun _ => .rfl⟩⟩
  · rw [if_neg self]
    cases reached : (distances vertex).face with
    | none =>
      refine ⟨distinct,fun hop => ⟨fun offers => ?_,fun _ => .rfl⟩⟩
      have through := offers.through
      rw [reached] at through
      cases through
    | some face =>
      dsimp only
      by_cases disabled : topology.metric face = disabledMetric
      · have idle : (topology.localPrefixes vertex).foldl (fun fib name => if topology.metric face = disabledMetric then fib
            else addRoute fib name face (distances vertex).metric) fib = fib := by
          simp only [if_pos disabled,List.foldl_fixed]
        rw [idle]
        refine ⟨distinct,fun hop => ⟨fun offers => ?_,fun _ => .rfl⟩⟩
        have through := offers.through
        rw [reached,Option.some.injEq] at through
        exact absurd (through ▸ disabled) offers.enabled
      · simp only [if_neg disabled]
        obtain ⟨single,members⟩ :=
          addRoutes_spec name (topology.localPrefixes vertex) face (distances vertex).metric fib distinct
        refine ⟨single,fun hop => ⟨?_,?_⟩⟩
        · intro offers
          have through := offers.through
          rw [reached,Option.some.injEq] at through
          rw [members hop,if_pos ⟨offers.announced,through.symm⟩]
        · intro silent
          rw [members hop,if_neg]
          intro both
          exact silent ⟨self,both.1,by rw [reached,both.2],both.2 ▸ disabled⟩

private theorem foldl_enabledRoutesTo (topology : Topology Router Face) (distances : Router → Weight Face) (source : Router)
    {name : Name} {origin : Router} (order : List Router)
    (single : ∀ vertex ∈ order, name ∈ topology.localPrefixes vertex → vertex = origin) (fib : Fib Face)
    (distinct : ((fib name).map NextHop.face).Nodup) :
    ((order.foldl (enabledRoutesTo topology distances source) fib name).map NextHop.face).Nodup ∧
      ∀ hop, (origin ∈ order ∧ Offers topology distances source name origin hop.face →
          (hop ∈ order.foldl (enabledRoutesTo topology distances source) fib name ↔
            hop.cost = costOf (distances origin).metric)) ∧
        (¬(origin ∈ order ∧ Offers topology distances source name origin hop.face) →
          (hop ∈ order.foldl (enabledRoutesTo topology distances source) fib name ↔ hop ∈ fib name)) := by
  induction order generalizing fib with
  | nil =>
    refine ⟨distinct,fun hop => ⟨fun both => ?_,fun _ => .rfl⟩⟩
    cases both.1
  | cons vertex order ih =>
    obtain ⟨first,members⟩ := enabledRoutesTo_spec topology distances source name fib vertex distinct
    obtain ⟨last,later⟩ := ih (fun other inside => single other (List.mem_cons_of_mem _ inside)) _ first
    refine ⟨last,?_⟩
    intro hop
    rw [List.foldl_cons]
    by_cases again : origin ∈ order ∧ Offers topology distances source name origin hop.face
    · refine ⟨fun _ => (later hop).1 again,?_⟩
      intro silent
      exact absurd ⟨List.mem_cons_of_mem _ again.1,again.2⟩ silent
    · rw [(later hop).2 again]
      by_cases offers : Offers topology distances source name vertex hop.face
      · have here := single vertex List.mem_cons_self offers.announced
        subst here
        refine ⟨fun _ => (members hop).1 offers,?_⟩
        intro silent
        exact absurd ⟨List.mem_cons_self,offers⟩ silent
      · refine ⟨?_,fun _ => (members hop).2 offers⟩
        intro both
        rcases List.mem_cons.mp both.1 with here | there
        · exact absurd (here ▸ both.2) offers
        · exact absurd ⟨there,both.2⟩ again

variable {network : InstalledNetwork Node Router Face} {node : Node} {source origin : Router} {name : Name}
  {order : List Router} {dijkstra : Topology Router Face → Router → Router → Weight Face}

omit [DecidableEq Router] [DecidableEq Face] in
theorem Alternative.around {hop : NextHop Face} (alternative : Alternative network node source origin hop) :
    ∃ path, Around network.toTopology source origin hop.face path := by
  obtain ⟨rest,least,-⟩ := alternative.cost
  obtain ⟨path,around,-⟩ := least.1
  exact ⟨path,around⟩

/-- What all runs share: the origin is the only one, and Dijkstra's algorithm is right for any metrics. -/
structure Setting (network : InstalledNetwork Node Router Face) (order : List Router)
    (dijkstra : Topology Router Face → Router → Router → Weight Face) (name : Name) (origin : Router) : Prop where
  small : SmallSums network.toTopology
  correct : ∀ metric source, ShortestTree (network.withMetric metric) source (dijkstra (network.withMetric metric) source)
  single : ∀ vertex ∈ order, name ∈ network.localPrefixes vertex ↔ vertex = origin
  listed : origin ∈ order

private theorem tryFace_fib (setting : Setting network order dijkstra name origin) (router : network.router node = some source)
    (other : origin ≠ source) {original : Face → Nat} {state : (Face → Nat) × Fib Face} {face : Face}
    (inside : face ∈ network.faceTable node) (remembered : original face = network.metric face % 2^16)
    (disabled : ∀ other ∈ network.faceTable node, state.1 other = disabledMetric)
    (elsewhere : ∀ other, other ∉ network.faceTable node → state.1 other % 2^16 = network.metric other % 2^16)
    (distinct : ((state.2 name).map NextHop.face).Nodup) (fresh : ∀ hop ∈ state.2 name, hop.face ≠ face) :
    (((network.tryFace order dijkstra source original state face).2 name).map NextHop.face).Nodup ∧
      ∀ hop, hop ∈ (network.tryFace order dijkstra source original state face).2 name ↔
        hop ∈ state.2 name ∨ hop.face = face ∧ Alternative network node source origin hop := by
  unfold Network.tryFace
  by_cases device : network.netDevice face = true
  · rw [if_pos device]
    dsimp only
    have only : OnlyEnabled network node face (Function.update state.1 face (original face)) := by
      refine ⟨?_,?_,?_⟩
      · rw [Function.update_self,remembered]
      · intro third own different
        rw [Function.update_of_ne different]
        exact disabled third own
      · intro third away
        have different : third ≠ face := by
          intro same
          rw [same] at away
          exact away inside
        rw [Function.update_of_ne different]
        exact elsewhere third away
    have tree := setting.correct (Function.update state.1 face (original face)) source
    generalize Function.update state.1 face (original face) = metric at only tree
    generalize dijkstra (network.withMetric metric) source = distances at tree
    obtain ⟨single,members⟩ := foldl_enabledRoutesTo (network.withMetric metric) distances source order
      (fun vertex there announced => (setting.single vertex there).mp announced) state.2 distinct
    refine ⟨single,?_⟩
    intro hop
    by_cases reached : ∃ path, Around network.toTopology source origin face path
    · obtain ⟨path,around⟩ := reached
      obtain ⟨rest,least,distance,bound⟩ := distance_around router setting.small only tree other around
      have cost : costOf (distances origin).metric = network.metric face + rest := by
        rw [distance]
        apply if_pos
        unfold disabledMetric at bound
        change network.metric face + rest < 2^31
        omega
      by_cases here : hop.face = face
      · have offers : Offers (network.withMetric metric) distances source name origin hop.face := by
          refine ⟨other,(setting.single origin setting.listed).mpr rfl,by rw [distance,here],?_⟩
          change metric hop.face ≠ disabledMetric
          unfold disabledMetric at bound ⊢
          rw [here,only.enabled]
          omega
        rw [(members hop).1 ⟨setting.listed,offers⟩,cost]
        constructor
        · intro same
          exact Or.inr ⟨here,here ▸ inside,here ▸ device,rest,here ▸ least,here ▸ same⟩
        · intro either
          rcases either with old | ⟨-,alternative⟩
          · exact absurd here (fresh hop old)
          · obtain ⟨third,thirdLeast,same⟩ := alternative.cost
            rw [here] at thirdLeast same
            rw [same,least.unique thirdLeast]
      · rw [(members hop).2]
        · simp [here]
        · intro both
          have through := both.2.through
          rw [distance] at through
          exact here (Option.some.inj through).symm
    · have unreached : ∀ path, ¬Around network.toTopology source origin face path :=
        fun path around => reached ⟨path,around⟩
      rw [(members hop).2]
      · constructor
        · exact Or.inl
        · intro either
          rcases either with old | ⟨here,alternative⟩
          · exact old
          · exact absurd (here ▸ alternative.around) reached
      · intro both
        exact both.2.enabled (distance_disabled router only tree other unreached both.2.through)
  · rw [if_neg device]
    refine ⟨distinct,?_⟩
    intro hop
    constructor
    · exact Or.inl
    · intro either
      rcases either with old | ⟨here,alternative⟩
      · exact old
      · exact absurd (here ▸ alternative.netDevice) device

private theorem foldl_tryFace_fib (setting : Setting network order dijkstra name origin)
    (router : network.router node = some source) (other : origin ≠ source) (original : Face → Nat) (faces : List Face)
    (separate : faces.Nodup) (inside : ∀ face ∈ faces, face ∈ network.faceTable node)
    (remembered : ∀ face ∈ faces, original face = network.metric face % 2^16) (state : (Face → Nat) × Fib Face)
    (disabled : ∀ other ∈ network.faceTable node, state.1 other = disabledMetric)
    (elsewhere : ∀ other, other ∉ network.faceTable node → state.1 other % 2^16 = network.metric other % 2^16)
    (distinct : ((state.2 name).map NextHop.face).Nodup) (fresh : ∀ hop ∈ state.2 name, hop.face ∉ faces) :
    (((faces.foldl (network.tryFace order dijkstra source original) state).2 name).map NextHop.face).Nodup ∧
      ∀ hop, hop ∈ (faces.foldl (network.tryFace order dijkstra source original) state).2 name ↔
        hop ∈ state.2 name ∨ hop.face ∈ faces ∧ Alternative network node source origin hop := by
  induction faces generalizing state with
  | nil =>
    refine ⟨distinct,?_⟩
    intro hop
    simp
  | cons face faces ih =>
    obtain ⟨alone,separate⟩ := List.nodup_cons.mp separate
    have own := inside face List.mem_cons_self
    obtain ⟨single,members⟩ := tryFace_fib setting router other own (remembered face List.mem_cons_self) disabled
      elsewhere distinct fun hop old same => fresh hop old (same ▸ List.mem_cons_self)
    have metric : (network.tryFace order dijkstra source original state face).1 = state.1 := by
      funext third
      exact tryFace_metric network.toNetwork order dijkstra source original state face third (disabled face own)
    obtain ⟨last,later⟩ := ih separate (fun third there => inside third (List.mem_cons_of_mem _ there))
      (fun third there => remembered third (List.mem_cons_of_mem _ there)) _ (by rw [metric]; exact disabled)
      (by rw [metric]; exact elsewhere) single (by
        intro hop there
        rcases (members hop).mp there with old | ⟨here,-⟩
        · exact fun again => fresh hop old (List.mem_cons_of_mem _ again)
        · rw [here]
          exact alone)
    refine ⟨last,?_⟩
    intro hop
    rw [List.foldl_cons,later hop,members hop,List.mem_cons,or_and_right,or_assoc]

variable [DecidableEq Node]

/-- The turn of a node whose FIB has nothing for the prefix. -/
theorem calculateAllAt_fib (setting : Setting network order dijkstra name origin)
    (router : network.router node = some source) (other : origin ≠ source) {state : RoutingState Node Face}
    (metrics : ∀ face, state.metric face % 2^16 = network.metric face % 2^16) (empty : state.fib node name = []) :
    (((network.calculateAllAt order dijkstra state node).fib node name).map NextHop.face).Nodup ∧
      ∀ hop, hop ∈ (network.calculateAllAt order dijkstra state node).fib node name ↔
        Alternative network node source origin hop := by
  have remembered := foldl_rememberFace (network.faceTable node) (network.distinct node) state.metric fun _ => 0
  unfold Network.calculateAllAt
  rw [router]
  dsimp only
  rw [Function.update_self]
  obtain ⟨single,members⟩ := foldl_tryFace_fib setting router other
    ((network.faceTable node).foldl rememberFace (state.metric,fun _ => 0)).2 (network.faceTable node)
    (network.distinct node) (fun _ inside => inside)
    (by
      intro face inside
      rw [(remembered face).2,if_pos inside]
      exact metrics face)
    (((network.faceTable node).foldl rememberFace (state.metric,fun _ => 0)).1,state.fib node)
    (by
      intro face inside
      rw [(remembered face).1,if_pos inside])
    (by
      intro face away
      rw [(remembered face).1,if_neg away]
      exact metrics face)
    (by simp [empty]) (by simp [empty])
  refine ⟨single,?_⟩
  intro hop
  rw [members hop]
  simp only [empty,List.not_mem_nil,false_or]
  exact ⟨fun both => both.2,fun alternative => ⟨alternative.face,alternative⟩⟩

end

section
variable [DecidableEq Node] [DecidableEq Router] [DecidableEq Face] (network : InstalledNetwork Node Router Face)
  (order : List Router) (dijkstra : Topology Router Face → Router → Router → Weight Face)

private theorem foldl_calculateAllAt_metric (nodes : List Node) (state : RoutingState Node Face)
    (metrics : ∀ face, state.metric face % 2^16 = network.metric face % 2^16) (face : Face) :
    (nodes.foldl (network.calculateAllAt order dijkstra) state).metric face % 2^16 = network.metric face % 2^16 := by
  induction nodes generalizing state with
  | nil => exact metrics face
  | cons turn nodes ih =>
    rw [List.foldl_cons]
    apply ih
    intro face
    rw [calculateAllAt_metric]
    split
    · rw [Nat.mod_mod]
      exact metrics face
    · exact metrics face

private theorem foldl_calculateAllAt_other {node : Node} (nodes : List Node) (outside : node ∉ nodes)
    (state : RoutingState Node Face) :
    (nodes.foldl (network.calculateAllAt order dijkstra) state).fib node = state.fib node := by
  induction nodes generalizing state with
  | nil => rfl
  | cons turn nodes ih =>
    rw [List.mem_cons,not_or] at outside
    rw [List.foldl_cons,ih outside.2]
    unfold Network.calculateAllAt
    split
    · rfl
    · exact Function.update_of_ne outside.1 _ _

variable {network order dijkstra} {node : Node} {source origin : Router} {name : Name}

private theorem calculateAllPossibleRoutes_fib (setting : Setting network order dijkstra name origin)
    (inside : node ∈ network.nodes) (router : network.router node = some source) (other : origin ≠ source) :
    (((network.calculateAllPossibleRoutes order dijkstra ⟨network.metric,fun _ _ => []⟩).fib node name).map
        NextHop.face).Nodup ∧
      ∀ hop, hop ∈ (network.calculateAllPossibleRoutes order dijkstra ⟨network.metric,fun _ _ => []⟩).fib node name ↔
        Alternative network node source origin hop := by
  obtain ⟨before,after,split⟩ := List.append_of_mem inside
  have distinct := network.nodesDistinct
  rw [split] at distinct
  have later : node ∉ after := (List.nodup_cons.mp (List.nodup_append.mp distinct).2.1).1
  have earlier : node ∉ before := by
    intro again
    exact (List.nodup_append.mp distinct).2.2 node again node List.mem_cons_self rfl
  have metrics := foldl_calculateAllAt_metric network order dijkstra before ⟨network.metric,fun _ _ => []⟩ fun _ => rfl
  have empty := congrFun (foldl_calculateAllAt_other network order dijkstra before earlier
    ⟨network.metric,fun _ _ => []⟩) name
  unfold Network.calculateAllPossibleRoutes
  rw [split,List.foldl_append,List.foldl_cons,foldl_calculateAllAt_other network order dijkstra after later]
  exact calculateAllAt_fib setting router other metrics empty

/-! The next hop of `CalculateRoutes` beside them. -/

omit [DecidableEq Node] in
private theorem mem_calculateRoutes (setting : Setting network order dijkstra name origin) (other : origin ≠ source)
    (distances : Router → Weight Face) (hop : NextHop Face) :
    hop ∈ calculateRoutes network.toTopology order distances source name ↔
      (distances origin).face = some hop.face ∧ hop.cost = costOf (distances origin).metric := by
  rw [(calculateRoutes_spec network.toTopology distances source name order).2 hop]
  have announces : ∀ vertex ∈ order, Announces network.toTopology distances source name vertex hop.face →
      vertex = origin := fun vertex there announced => (setting.single vertex there).mp announced.2.1
  constructor
  · intro ⟨vertex,last,cost⟩
    have here := announces vertex last.mem last.1
    rw [← here]
    exact ⟨last.1.2.2,cost⟩
  · intro ⟨through,cost⟩
    have announced : Announces network.toTopology distances source name origin hop.face :=
      ⟨other,(setting.single origin setting.listed).mpr rfl,through⟩
    obtain ⟨last,found⟩ : ∃ last, LastWith (fun vertex => Announces network.toTopology distances source name vertex
      hop.face) order last := exists_lastWith setting.listed announced
    have here := announces last found.mem found.1
    rw [here] at found
    exact ⟨origin,found,cost⟩

omit [DecidableEq Node] [DecidableEq Face] in
/-- A path around is one from the source, of the metric of the next hop. -/
theorem Alternative.path (small : SmallSums network.toTopology) {hop : NextHop Face}
    (alternative : Alternative network node source origin hop) :
    ∃ path, IsPath network.incidencies source path origin ∧ pathCost network.narrowMetric path = hop.cost ∧
      hop.cost < disabledMetric := by
  obtain ⟨path,around⟩ := alternative.around
  obtain ⟨rest,least,cost⟩ := alternative.cost
  obtain ⟨next,shortest,isLeast,edge,isPath,simple⟩ := exists_least_around around
  have bound := small source ((some hop.face,next) :: shortest) origin ⟨edge,isPath⟩ simple
  have total : pathCost network.faceMetric ((some hop.face,next) :: shortest) = hop.cost := by
    rw [pathCost_cons,cost,least.unique isLeast]
    rfl
  refine ⟨(some hop.face,next) :: shortest,⟨edge,isPath⟩,(narrow_eq_face bound).trans total,?_⟩
  rw [← total]
  exact bound

omit [DecidableEq Node] [DecidableEq Face] in
private theorem alternative_finite (setting : Setting network order dijkstra name origin) (other : origin ≠ source)
    {distances : Router → Weight Face} (tree : ShortestTree network.toTopology source distances) {hop : NextHop Face}
    (alternative : Alternative network node source origin hop) :
    (distances origin).metric ≤ hop.cost ∧ distances origin ≠ weightInf := by
  obtain ⟨path,isPath,cost,bound⟩ := alternative.path setting.small
  unfold disabledMetric at bound
  have near : (distances origin).metric ≤ hop.cost := by
    rw [← cost]
    apply distance_le rfl tree other isPath
    omega
  refine ⟨near,?_⟩
  intro infinite
  rw [infinite] at near
  change 2^16 - 1 ≤ hop.cost at near
  omega

omit [DecidableEq Node] [DecidableEq Face] in
/-- A finite distance is the cost of an alternative. -/
theorem alternative_of_distance (setting : Setting network order dijkstra name origin)
    (router : network.router node = some source) (other : origin ≠ source) {distances : Router → Weight Face}
    (tree : ShortestTree network.toTopology source distances) (finite : distances origin ≠ weightInf) :
    ∃ hop, Alternative network node source origin hop ∧ (distances origin).face = some hop.face ∧
      hop.cost = costOf (distances origin).metric := by
  obtain ⟨face,next,rest,inside,device,edge,isPath,simple,distance,-⟩ := attained_through router rfl tree other finite
  have bound := setting.small source ((some face,next) :: rest) origin ⟨edge,isPath⟩ simple
  have total : pathCost network.faceMetric ((some face,next) :: rest) =
      network.metric face + pathCost network.faceMetric rest := pathCost_cons _ _
  rw [narrow_eq_face bound,total] at distance
  rw [total] at bound
  have around : Around network.toTopology source origin face rest :=
    ⟨next,edge,isPath,(List.nodup_cons.mp simple).1⟩
  obtain ⟨-,shortest,least,-⟩ := exists_least_around around
  have shorter : pathCost network.faceMetric shortest ≤ pathCost network.faceMetric rest := least.2 ⟨rest,around,rfl⟩
  have alternative : Alternative network node source origin
      ⟨face,network.metric face + pathCost network.faceMetric shortest⟩ := ⟨inside,device,_,least,rfl⟩
  have near := (alternative_finite setting other tree alternative).1
  rw [distance] at near
  refine ⟨_,alternative,by rw [distance],?_⟩
  have wide : costOf (distances origin).metric = network.metric face + pathCost network.faceMetric rest := by
    rw [distance]
    apply if_pos
    unfold disabledMetric at bound
    change network.metric face + pathCost network.faceMetric rest < 2^31
    omega
  rw [wide]
  exact Nat.le_antisymm (Nat.add_le_add_left shorter _) near

/-- At each other node the next hops for the prefix are those of the faces behind which the origin is reached
without coming back, each at its least metric, and the cheapest costs what `CalculateRoutes` finds. -/
theorem alternatives_exact (network : InstalledNetwork Node Router Face) (order : List Router)
    (dijkstra : Topology Router Face → Router → Router → Weight Face) (listed : order.Perm network.vertices)
    (correct : ∀ metric source,
      ShortestTree (network.withMetric metric) source (dijkstra (network.withMetric metric) source))
    (small : SmallSums network.toTopology) (name : Name) (origin : Router) (known : origin ∈ network.vertices)
    (single : ∀ vertex ∈ network.vertices, name ∈ network.localPrefixes vertex ↔ vertex = origin)
    (node : Node) (inside : node ∈ network.nodes) (source : Router) (router : network.router node = some source)
    (other : source ≠ origin) :
    (((network.calculateAllPossibleRoutes order dijkstra ⟨network.metric,fun _ _ => []⟩).fib node name).map
        NextHop.face).Nodup ∧
      (∀ hop, hop ∈ (network.calculateAllPossibleRoutes order dijkstra ⟨network.metric,fun _ _ => []⟩).fib node name ↔
        Alternative network node source origin hop) ∧
      ((network.calculateAllPossibleRoutes order dijkstra ⟨network.metric,fun _ _ => []⟩).fib node name = [] ↔
        calculateRoutes network.toTopology order (dijkstra network.toTopology source) source name = []) ∧
      ∀ direct ∈ calculateRoutes network.toTopology order (dijkstra network.toTopology source) source name,
        IsLeast {cost | ∃ hop ∈ (network.calculateAllPossibleRoutes order dijkstra
          ⟨network.metric,fun _ _ => []⟩).fib node name, hop.cost = cost} direct.cost := by
  have setting : Setting network order dijkstra name origin := by
    refine ⟨small,correct,?_,listed.mem_iff.mpr known⟩
    intro vertex there
    exact single vertex (listed.mem_iff.mp there)
  have other := Ne.symm other
  have tree : ShortestTree network.toTopology source (dijkstra network.toTopology source) :=
    correct network.metric source
  obtain ⟨distinct,members⟩ := calculateAllPossibleRoutes_fib setting inside router other
  have direct := mem_calculateRoutes setting other (dijkstra network.toTopology source)
  have finite : ∀ hop ∈ calculateRoutes network.toTopology order (dijkstra network.toTopology source) source name,
      dijkstra network.toTopology source origin ≠ weightInf := by
    intro hop there infinite
    have through := ((direct hop).mp there).1
    rw [infinite] at through
    cases through
  refine ⟨distinct,members,?_,?_⟩
  · rw [List.eq_nil_iff_forall_not_mem,List.eq_nil_iff_forall_not_mem]
    constructor
    · intro nothing hop there
      obtain ⟨alternative,found,-⟩ := alternative_of_distance setting router other tree (finite hop there)
      exact nothing alternative ((members alternative).mpr found)
    · intro nothing hop there
      have reached := (alternative_finite setting other tree ((members hop).mp there)).2
      obtain ⟨found,-,through,cost⟩ := alternative_of_distance setting router other tree reached
      exact nothing found ((direct found).mpr ⟨through,cost⟩)
  · intro hop there
    obtain ⟨through,cost⟩ := (direct hop).mp there
    obtain ⟨found,alternative,-,same⟩ := alternative_of_distance setting router other tree (finite hop there)
    refine ⟨⟨found,(members found).mpr alternative,same.trans cost.symm⟩,?_⟩
    intro bound ⟨rival,present,equal⟩
    have near := (alternative_finite setting other tree ((members rival).mp present)).1
    have small_distance : costOf (dijkstra network.toTopology source origin).metric =
        (dijkstra network.toTopology source origin).metric := by
      apply if_pos
      have limit := alternative.path setting.small
      obtain ⟨-,-,-,limit⟩ := limit
      have closer := (alternative_finite setting other tree alternative).1
      unfold disabledMetric at limit
      omega
    rw [cost,small_distance,← equal]
    exact near

end

end

/-! Two routers with two links between them, of which the second announces a prefix. -/

def parallelLinks : InstalledNetwork Bool Bool (Bool × Bool) where
  vertices := [false,true]
  incidencies router := [(some (router,false),!router),(some (router,true),!router)]
  metric face := if face.2 then 5 else 1
  localPrefixes router := if router then [[[97]]] else []
  nodes := [false,true]
  router := some
  faceTable node := [(node,false),(node,true)]
  netDevice _ := true
  distinct := by decide
  nodesDistinct := by decide
  own := by decide
  apart := by decide

def cheaperLink (topology : Topology Bool (Bool × Bool)) (source : Bool) : Weight (Bool × Bool) :=
  if topology.narrowMetric (some (source,false)) ≤ topology.narrowMetric (some (source,true)) then
    topology.edgeWeight (some (source,false))
  else topology.edgeWeight (some (source,true))

def linkDistances (topology : Topology Bool (Bool × Bool)) (source vertex : Bool) : Weight (Bool × Bool) :=
  if vertex = source then weightZero
  else if (cheaperLink topology source).metric < 2^16 - 1 then cheaperLink topology source else weightInf

private theorem cheaperLink_cases (topology : Topology Bool (Bool × Bool)) (source : Bool) :
    ∃ link, cheaperLink topology source = topology.edgeWeight (some (source,link)) ∧
      ∀ other, topology.narrowMetric (some (source,link)) ≤ topology.narrowMetric (some (source,other)) := by
  unfold cheaperLink
  split
  · rename_i first
    refine ⟨false,rfl,?_⟩
    intro other
    cases other with
    | false => exact Nat.le_refl _
    | true => exact first
  · rename_i second
    refine ⟨true,rfl,?_⟩
    intro other
    cases other with
    | false => exact Nat.le_of_not_le second
    | true => exact Nat.le_refl _

private theorem parallel_tree (metric : Bool × Bool → Nat) (source : Bool) :
    ShortestTree (parallelLinks.withMetric metric) source (linkDistances (parallelLinks.withMetric metric) source) := by
  have edges : ∀ link vertex, vertex ≠ source →
      (some (source,link),vertex) ∈ (parallelLinks.withMetric metric).incidencies source := by
    change ∀ link vertex, vertex ≠ source → (some (source,link),vertex) ∈
      [(some (source,false),!source),(some (source,true),!source)]
    revert source
    decide
  generalize topology_eq : parallelLinks.withMetric metric = topology at edges
  obtain ⟨link,cheaper,least⟩ := cheaperLink_cases topology source
  have narrow : topology.narrowMetric (some (source,link)) < 2^16 := Nat.mod_lt _ (by decide)
  have metric_eq : (cheaperLink topology source).metric = topology.narrowMetric (some (source,link)) := by rw [cheaper]; rfl
  constructor
  · intro vertex other
    unfold linkDistances
    rw [if_neg other]
    split
    · rename_i finite
      have cost : pathCost topology.narrowMetric [(some (source,link),vertex)] =
          topology.narrowMetric (some (source,link)) := by simp [pathCost]
      refine Or.inr ⟨decide_eq_true finite,[(some (source,link),vertex)],⟨edges link vertex other,rfl⟩,?_,?_,?_⟩
      · simp [visited,Ne.symm other]
      · rw [cost]
        omega
      · have face := combined_face topology (source,link) vertex []
        have combined := combined_metric topology [(some (source,link),vertex)]
        rw [cost,Nat.mod_eq_of_lt (by omega)] at combined
        rw [cheaper,Topology.edgeWeight]
        generalize topology.combined [(some (source,link),vertex)] = weight at face combined
        obtain ⟨first,total⟩ := weight
        dsimp only at face combined
        rw [face,combined]
    · exact Or.inl rfl
  · intro vertex path other isPath fits
    apply decide_eq_false
    rw [combined_metric,Nat.mod_eq_of_lt fits]
    unfold linkDistances
    rw [if_neg other]
    cases path with
    | nil => exact absurd isPath (Ne.symm other)
    | cons step rest =>
      have taken := isPath.1
      rw [← topology_eq] at taken
      have first : ∃ other, step.1 = some (source,other) := by
        rcases List.mem_cons.mp taken with here | there
        · exact ⟨false,congrArg Prod.fst here⟩
        · exact ⟨true,congrArg Prod.fst (List.mem_singleton.mp there)⟩
      obtain ⟨other,edge⟩ := first
      have near := least other
      rw [pathCost_cons,edge]
      split
      · rw [metric_eq]
        omega
      · rename_i infinite
        rw [metric_eq] at infinite
        change ¬_ < 2^16 - 1
        omega

private theorem parallel_small : SmallSums parallelLinks.toTopology := by
  intro source path target isPath simple
  cases path with
  | nil => decide
  | cons step rest =>
    obtain ⟨edge,next⟩ := step
    have taken : (edge,next) ∈ [(some (source,false),!source),(some (source,true),!source)] := isPath.1
    have cost : parallelLinks.faceMetric edge ≤ 5 ∧ next = !source := by
      rcases List.mem_cons.mp taken with here | there
      · obtain ⟨rfl,rfl⟩ := Prod.mk.inj here
        exact ⟨Nat.le_add_left 1 4,rfl⟩
      · obtain ⟨rfl,rfl⟩ := Prod.mk.inj (List.mem_singleton.mp there)
        exact ⟨Nat.le_refl _,rfl⟩
    cases rest with
    | nil =>
      rw [pathCost_cons]
      change parallelLinks.faceMetric edge + 0 < disabledMetric
      unfold disabledMetric
      omega
    | cons second more =>
      have back : second ∈ [(some (next,false),!next),(some (next,true),!next)] := isPath.2.1
      have again : second.2 = source := by
        rw [cost.2] at back
        rcases List.mem_cons.mp back with here | there
        · rw [here]
          exact Bool.not_not source
        · rw [List.mem_singleton.mp there]
          exact Bool.not_not source
      exact absurd simple (by simp [visited,again])

/-- The dearer link is a next hop as well. -/
theorem dearer_link_routed : Alternative parallelLinks false false true ⟨(false,true),5⟩ ∧
    ⟨(false,true),5⟩ ∈ (parallelLinks.calculateAllPossibleRoutes [false,true] linkDistances
      ⟨parallelLinks.metric,fun _ _ => []⟩).fib false [[97]] := by
  have alternative : Alternative parallelLinks false false true ⟨(false,true),5⟩ := by
    refine ⟨by decide,rfl,0,⟨⟨[],⟨true,by decide,rfl,by decide⟩,rfl⟩,?_⟩,rfl⟩
    intro metric _
    exact Nat.zero_le metric
  refine ⟨alternative,?_⟩
  exact ((alternatives_exact parallelLinks [false,true] linkDistances (List.Perm.refl _) parallel_tree parallel_small
    [[97]] true (by decide) (by decide) false (by decide) false rfl (by decide)).2.1 _).mpr alternative

end Ncfcc.Helper

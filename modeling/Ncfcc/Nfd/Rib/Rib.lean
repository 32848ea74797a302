import Ncfcc.Name

/-! The RIB: entries by name with their own routes, the routes they inherit and their
place in the tree of names. Entries refer to each other by name. -/
namespace Ncfcc.Nfd

structure Route where
  faceId : Nat
  origin : Nat
  cost : Nat
  childInherit : Bool
  capture : Bool
  deriving DecidableEq

/-- `compareFaceIdAndOrigin`. -/
def Route.same (first second : Route) : Bool := first.faceId == second.faceId && first.origin == second.origin

structure RibEntry where
  name : Name
  routes : List Route
  inheritedRoutes : List Route
  nRoutesWithCaptureSet : Nat
  parent : Option Name
  children : List Name
  deriving DecidableEq

/-- The cheapest route, the first of several. -/
def lowestCost (routes : List Route) : Option Route :=
  routes.foldl (fun candidate route =>
    match candidate with
    | none => some route
    | some best => if route.cost < best.cost then some route else some best) none

/-- The fields of an existing route are overwritten. -/
def updateRoute : List Route → Route → List Route
  | [], _ => []
  | route :: routes, new => if route.same new then new :: routes else route :: updateRoute routes new

namespace RibEntry

def findRoute (entry : RibEntry) (route : Route) : Option Route := entry.routes.find? fun other => other.same route

def hasFaceId (entry : RibEntry) (faceId : Nat) : Bool := entry.routes.any fun route => route.faceId == faceId

def hasCapture (entry : RibEntry) : Bool := entry.nRoutesWithCaptureSet > 0

def hasChildInheritOnFaceId (entry : RibEntry) (faceId : Nat) : Bool :=
  entry.routes.any fun route => route.faceId == faceId && route.childInherit

def hasInheritedRoute (entry : RibEntry) (route : Route) : Bool :=
  entry.inheritedRoutes.any fun other => other.faceId == route.faceId

def insertRoute (entry : RibEntry) (route : Route) : RibEntry :=
  match entry.findRoute route with
  | some _ => entry
  | none =>
    {entry with
      routes := entry.routes ++ [route]
      nRoutesWithCaptureSet :=
        if route.capture then entry.nRoutesWithCaptureSet + 1 else entry.nRoutesWithCaptureSet}

/-- The count of capturing routes is unsigned and wraps below zero. -/
def eraseRoute (entry : RibEntry) (route : Route) : RibEntry :=
  match entry.findRoute route with
  | none => entry
  | some existing =>
    {entry with
      routes := entry.routes.eraseP fun other => other.same route
      nRoutesWithCaptureSet :=
        if existing.capture then
          if entry.nRoutesWithCaptureSet = 0 then 2^64 - 1 else entry.nRoutesWithCaptureSet - 1
        else entry.nRoutesWithCaptureSet}

def getRouteWithLowestCostByFaceId (entry : RibEntry) (faceId : Nat) : Option Route :=
  lowestCost (entry.routes.filter fun route => route.faceId == faceId)

def getRouteWithLowestCostAndChildInheritByFaceId (entry : RibEntry) (faceId : Nat) : Option Route :=
  lowestCost (entry.routes.filter fun route => route.faceId == faceId && route.childInherit)

/-- The result points into a vector that is gone when it is read, and ties leave open which
route stands second: `readSecond` is what is found there. -/
def getRouteWithSecondLowestCostByFaceId (readSecond : List Route → Route) (entry : RibEntry) (faceId : Nat) :
    Option Route :=
  let candidates := entry.routes.filter fun route => route.faceId == faceId
  if candidates.length < 2 then none else some (readSecond candidates)

end RibEntry

/-- A set of routes in the order of their faces, one for each face; the first inserted stays. -/
def insertRoute : List Route → Route → List Route
  | [], new => [new]
  | route :: routes, new =>
    if new.faceId < route.faceId then new :: route :: routes
    else if route.faceId < new.faceId then route :: insertRoute routes new
    else route :: routes

def findFace (routes : List Route) (faceId : Nat) : Option Route := routes.find? fun route => route.faceId == faceId

/-- The entries in the order of their names, and for each face the entries that were given a route on it. -/
structure Rib where
  entries : List RibEntry
  faceMap : Nat → List Name

namespace Rib

def empty : Rib := ⟨[],fun _ => []⟩

def find (rib : Rib) (name : Name) : Option RibEntry := rib.entries.find? fun entry => entry.name = name

def modify (rib : Rib) (name : Name) (change : RibEntry → RibEntry) : Rib :=
  {rib with entries := rib.entries.map fun entry => if entry.name = name then change entry else entry}

def findParent (rib : Rib) (name : Name) : Option Name :=
  (List.range name.length).reverse.findSome? fun count => (rib.find (name.getPrefix count)).map RibEntry.name

/-- The entries after that of the name, up to the first that does not have it as a prefix. -/
def findDescendants (rib : Rib) (name : Name) : List RibEntry :=
  ((rib.entries.dropWhile fun entry => entry.name ≠ name).drop 1).takeWhile fun entry => name.isPrefixOf entry.name

def findDescendantsForNonInsertedName (rib : Rib) (name : Name) : List RibEntry :=
  rib.entries.filter fun entry => name.isPrefixOf entry.name

def addChild (rib : Rib) (parent child : Name) : Rib :=
  (rib.modify child fun entry => {entry with parent := some parent}).modify parent fun entry =>
    {entry with children := entry.children ++ [child]}

def removeChild (rib : Rib) (parent child : Name) : Rib :=
  (rib.modify child fun entry => {entry with parent := none}).modify parent fun entry =>
    {entry with children := entry.children.filter fun other => other ≠ child}

def insertEntry (rib : Rib) (entry : RibEntry) : Rib :=
  {rib with entries := (rib.entries.takeWhile fun other => Name.less other.name entry.name) ++
    entry :: rib.entries.dropWhile fun other => Name.less other.name entry.name}

def addFace (rib : Rib) (faceId : Nat) (name : Name) : Rib :=
  {rib with faceMap := fun other => if other = faceId then rib.faceMap other ++ [name] else rib.faceMap other}

def removeFace (rib : Rib) (faceId : Nat) (name : Name) : Rib :=
  {rib with faceMap := fun other =>
    if other = faceId then (rib.faceMap other).filter fun held => held ≠ name else rib.faceMap other}

def adopt (parent : Option Name) (name : Name) (rib : Rib) (child : RibEntry) : Rib :=
  if child.parent = parent then
    match parent with
    | some above => (rib.removeChild above child.name).addChild name child.name
    | none => rib.addChild name child.name
  else rib

def insertName (rib : Rib) (name : Name) (route : Route) : Rib :=
  let rib := rib.insertEntry ⟨name,[route],[],if route.capture then 1 else 0,none,[]⟩
  let parent := rib.findParent name
  let rib := match parent with
    | some above => rib.addChild above name
    | none => rib
  ((rib.findDescendants name).foldl (adopt parent name) rib).addFace route.faceId name

def insert (rib : Rib) (name : Name) (route : Route) : Rib :=
  match rib.find name with
  | none => rib.insertName name route
  | some entry =>
    match entry.findRoute route with
    | none => (rib.modify name fun entry => entry.insertRoute route).addFace route.faceId name
    | some _ => rib.modify name fun entry => {entry with routes := updateRoute entry.routes route}

def release (parent : Option Name) (name : Name) (rib : Rib) (child : Name) : Rib :=
  match parent with
  | some above => (rib.removeChild name child).addChild above child
  | none => rib.removeChild name child

def eraseEntry (rib : Rib) (entry : RibEntry) : Rib :=
  let rib := match entry.parent with
    | some above => rib.removeChild above entry.name
    | none => rib
  let rib := entry.children.foldl (release entry.parent entry.name) rib
  {rib with entries := rib.entries.filter fun other => other.name ≠ entry.name}

def erase (rib : Rib) (name : Name) (route : Route) : Rib :=
  match rib.find name with
  | none => rib
  | some entry =>
    match entry.findRoute route with
    | none => rib
    | some _ =>
      let erased := entry.eraseRoute route
      let rib := rib.modify name fun entry => entry.eraseRoute route
      let rib := if erased.hasFaceId route.faceId then rib else rib.removeFace route.faceId name
      if erased.routes.isEmpty then rib.eraseEntry erased else rib

/-- The walk up the tree; `fuel` bounds the number of ancestors visited. -/
def ancestorRoutes (rib : Rib) : Nat → Option Name → List Route → List Route
  | 0, _, routes => routes
  | _ + 1, none, routes => routes
  | fuel + 1, some parent, routes =>
    match rib.find parent with
    | none => routes
    | some entry =>
      let routes := (entry.routes.filter fun route => route.childInherit).foldl insertRoute routes
      if entry.hasCapture then routes else ancestorRoutes rib fuel entry.parent routes

def getAncestorRoutes (rib : Rib) (entry : RibEntry) : List Route :=
  rib.ancestorRoutes entry.name.length entry.parent []

/-- `getAncestorRoutes` for a name that may not be in the RIB. -/
def getAncestorRoutesOf (rib : Rib) (name : Name) : List Route :=
  rib.ancestorRoutes name.length (rib.findParent name) []

end Rib

end Ncfcc.Nfd

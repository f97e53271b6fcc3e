import WslDrive.Core.Path
import WslDrive.Core.StringPool
import WslDrive.Core.Unicode
import WslDrive.Lib.Siblings

/-!
# The metadata tree

`MetadataTree` mirrors the names and attributes of a directory tree.  Nodes live in one vector and
refer to each other by index; removed nodes leave slots that are used again.  Children form an
intrusive doubly linked list, and two hash indexes lead from a parent and a name, or a folded
name, to a child.

The vector is a function on ids with its length.  Ids and child counts have 32 bits in the source
and the other counters are `size_t`; here they are natural numbers, which is the same for trees of
fewer than `2 ^ 32 - 1` nodes and names.  The hash indexes are maps from pairs of a parent and a
name id.  A loop of the source that follows pointers takes a bound on its rounds, and the invariant
of the tree shows that the bound is not met.
-/

namespace WslDrive

/-- `NodeId`: an index into the vector of nodes.  The source has 32 bits and the last value for the
invalid id, so the vector has fewer than `2 ^ 32 - 1` nodes there. -/
abbrev NodeId := ℕ

/-- `LookupMode`. -/
inductive LookupMode where
  | exact
  /-- The exact name if there is one, otherwise the first child with the same folding. -/
  | caseInsensitive
  deriving DecidableEq, Repr

namespace MetadataTree

/-- `Node`; `none` stands for the invalid ids. -/
structure Node where
  /-- No name marks a free slot. -/
  name : Option NameId := none
  foldedName : Option NameId := none
  parent : Option NodeId := none
  firstChild : Option NodeId := none
  lastChild : Option NodeId := none
  nextSibling : Option NodeId := none
  prevSibling : Option NodeId := none
  childCount : ℕ := 0
  attr : Attributes := {}
  deriving DecidableEq, Repr

/-- The node is a directory. -/
def Node.isDir (n : Node) : Bool := n.attr.kind == .directory

/-- An index from a parent and a name id to a child. -/
abbrev Index := NodeId × NameId → Option NodeId

/-- The attributes of directories that no entry describes. -/
def kImplicitDirectory : Attributes where
  size := 0
  mtimeNs := 0
  mode := 0o755
  kind := .directory

end MetadataTree

open MetadataTree Path Unicode

/-- `MetadataTree`. -/
structure MetadataTree where
  names : StringPool
  nodes : NodeId → Node
  /-- Length of the vector of nodes. -/
  size : ℕ
  /-- Free slots, the last one freed first. -/
  free : List NodeId
  exact : Index
  folded : Index
  live : ℕ
  collisions : ℕ
  dropped : ℕ

namespace MetadataTree

/-- `root`. -/
def root : NodeId := 0

/-- `clear`, and the constructor: a tree that holds only its root. -/
def fresh : MetadataTree where
  names := (StringPool.empty.intern []).2
  nodes := Function.update (fun _ => {}) root
    { name := some (StringPool.empty.intern []).1
      foldedName := some (StringPool.empty.intern []).1
      attr := kImplicitDirectory }
  size := 1
  free := []
  exact := fun _ => none
  folded := fun _ => none
  live := 1
  collisions := 0
  dropped := 0

variable (t : MetadataTree)

/-- `clear`. -/
def clear (_ : MetadataTree) : MetadataTree := fresh

/-- `valid`: the id is in use. -/
def valid (id : NodeId) : Bool := id < t.size && (t.nodes id).name.isSome

/-- The name of a node. -/
def name (id : NodeId) : Bytes :=
  match (t.nodes id).name with
  | some nid => t.names.view nid
  | none => []

/-- `valid_name`: not empty, not `.` or `..`, and no separator or NUL in it. -/
def validName (name : Bytes) : Bool :=
  !(name == [] || name == dot || name == dotdot) && name.all fun c => !(isPathSeparator c || c == 0)

/-- Assign to the fields of one node. -/
def modify (id : NodeId) (f : Node → Node) : MetadataTree :=
  { t with nodes := Function.update t.nodes id (f (t.nodes id)) }

/-- `alloc_node`: the slot freed last, or a new one. -/
def allocNode : NodeId × MetadataTree :=
  match t.free with
  | id :: free => (id, { t with free, nodes := Function.update t.nodes id {} })
  | [] => (t.size, { t with size := t.size + 1, nodes := Function.update t.nodes t.size {} })

/-- `link_child`: the child goes to the end of the list of its parent. -/
def linkChild (parent child : NodeId) : MetadataTree :=
  let t := t.modify child fun c =>
    { c with parent := some parent, nextSibling := none,
             prevSibling := (t.nodes parent).lastChild }
  let t := match (t.nodes parent).lastChild with
    | some last => t.modify last fun n => { n with nextSibling := some child }
    | none => t.modify parent fun p => { p with firstChild := some child }
  t.modify parent fun p => { p with lastChild := some child, childCount := p.childCount + 1 }

/-- `unlink_child`; the node has a parent. -/
def unlinkChild (child : NodeId) : MetadataTree :=
  let c := t.nodes child
  match c.parent with
  | none => t
  | some parent =>
    let t := match c.prevSibling with
      | some prev => t.modify prev fun n => { n with nextSibling := c.nextSibling }
      | none => t.modify parent fun p => { p with firstChild := c.nextSibling }
    let t := match c.nextSibling with
      | some next => t.modify next fun n => { n with prevSibling := c.prevSibling }
      | none => t.modify parent fun p => { p with lastChild := c.prevSibling }
    let t := t.modify parent fun p => { p with childCount := p.childCount - 1 }
    t.modify child fun c => { c with prevSibling := none, nextSibling := none }

/-- `index_node`; the node has a parent and its names. -/
def indexNode (id : NodeId) : MetadataTree :=
  match (t.nodes id).parent, (t.nodes id).name, (t.nodes id).foldedName with
  | some parent, some name, some foldedName =>
    let t := { t with exact := Function.update t.exact (parent, name) (some id) }
    match t.folded (parent, foldedName) with
    | some _ => { t with collisions := t.collisions + 1 }
    | none => { t with folded := Function.update t.folded (parent, foldedName) (some id) }
  | _, _, _ => t

/-- The children of a node, in sibling order, as `for_each_child` visits them. -/
def children (dir : NodeId) : List NodeId :=
  Siblings.follow (fun c => (t.nodes c).nextSibling) t.size (t.nodes dir).firstChild

/-- `unindex_node`; the node has a parent and its names. -/
def unindexNode (id : NodeId) : MetadataTree :=
  match (t.nodes id).parent, (t.nodes id).name, (t.nodes id).foldedName with
  | some parent, some name, some foldedName =>
    let t := { t with exact := Function.update t.exact (parent, name) none }
    match t.folded (parent, foldedName) with
    | none => t
    | some owner =>
      if owner ≠ id then { t with collisions := t.collisions - 1 }
      else
        let t := { t with folded := Function.update t.folded (parent, foldedName) none }
        if t.collisions = 0 then t
        else
          -- The folded slot goes to the first remaining sibling with the same folding.
          match (t.children parent).find? fun s =>
              s ≠ id && (t.nodes s).foldedName == some foldedName with
          | none => t
          | some s =>
            { t with folded := Function.update t.folded (parent, foldedName) (some s)
                     collisions := t.collisions - 1 }
  | _, _, _ => t

/-- The id of the folding of a name; names that fold to themselves share it. -/
def internFolded (names : StringPool) (name : Bytes) (nid : NameId) : NameId × StringPool :=
  if !isAscii name || name.any isUpper then names.intern (casefold name) else (nid, names)

/-- `insert`. -/
def insert (parent : NodeId) (name : Bytes) (attr : Attributes) :
    Except Errc NodeId × MetadataTree :=
  if !t.valid parent then (.error .notFound, t)
  else if !(t.nodes parent).isDir then (.error .notADirectory, t)
  else if !validName name then (.error .invalidPath, t)
  else
    let (nid, names) := t.names.intern name
    let t := { t with names }
    if (t.exact (parent, nid)).isSome then (.error .alreadyExists, t)
    else
      let (fid, names) := internFolded t.names name nid
      let t := { t with names }
      let (id, t) := t.allocNode
      let t := t.modify id fun n => { n with name := some nid, foldedName := some fid, attr }
      let t := t.linkChild parent id
      let t := t.indexNode id
      (.ok id, { t with live := t.live + 1 })

/-- The loop of `release_subtree` on its stack, top first. -/
def releaseLoop (id : NodeId) : ℕ → MetadataTree → List NodeId → MetadataTree
  | 0, t, _ => t
  | _ + 1, t, [] => t
  | fuel + 1, t, cur :: stack =>
    if (t.nodes cur).firstChild ≠ none then
      releaseLoop id fuel t ((t.children cur).reverse ++ cur :: stack)
    else
      let t := if cur ≠ id then t.unlinkChild cur else t
      let t := t.unindexNode cur
      let t := t.modify cur fun n => { n with name := none }
      releaseLoop id fuel { t with free := cur :: t.free, live := t.live - 1 } stack

/-- Every node of the subtree is looked at twice at most. -/
def releaseSubtree (id : NodeId) : MetadataTree := releaseLoop id (2 * t.size) t [id]

/-- The loop of `set_attributes` over the children of a directory that becomes something else. -/
def releaseChildren (id : NodeId) : ℕ → MetadataTree → MetadataTree
  | 0, t => t
  | fuel + 1, t =>
    match (t.nodes id).firstChild with
    | none => t
    | some c => releaseChildren id fuel ((t.unlinkChild c).releaseSubtree c)

/-- `set_attributes`: a directory that becomes something else loses what is below it. -/
def setAttributes (id : NodeId) (attr : Attributes) : Except Errc Unit × MetadataTree :=
  if !t.valid id then (.error .notFound, t)
  else
    let n := t.nodes id
    let t := if n.isDir && attr.kind != .directory && n.childCount != 0 then
        releaseChildren id t.size t else t
    (.ok (), t.modify id fun n => { n with attr })

/-- `find_child`. -/
def findChild (parent : NodeId) (name : Bytes) (mode : LookupMode) : Option NodeId :=
  if !t.valid parent || !(t.nodes parent).isDir then none
  else
    match (t.names.find name).bind fun nid => t.exact (parent, nid) with
    | some v => some v
    | none =>
      if mode = .exact then none
      else (t.names.find (casefold name)).bind fun fid => t.folded (parent, fid)

/-- `upsert`: the exact name if it is there, otherwise a new node. -/
def upsert (parent : NodeId) (name : Bytes) (attr : Attributes) :
    Except Errc NodeId × MetadataTree :=
  if !t.valid parent then (.error .notFound, t)
  else
    match t.findChild parent name .exact with
    | some existing =>
      match t.setAttributes existing attr with
      | (.error e, t) => (.error e, t)
      | (.ok (), t) => (.ok existing, t)
    | none => t.insert parent name attr

/-- `remove`, with everything below. -/
def remove (id : NodeId) : Except Errc Unit × MetadataTree :=
  if !t.valid id then (.error .notFound, t)
  else if id = root then (.error .invalidArgument, t)
  else (.ok (), (t.unlinkChild id).releaseSubtree id)

/-- The loop of `rename` that looks for a node among another one and its ancestors. -/
def isAncestor (id : NodeId) : ℕ → Option NodeId → Bool
  | 0, _ => false
  | _ + 1, none => false
  | fuel + 1, some a => a == id || isAncestor id fuel (t.nodes a).parent

/-- `rename`. -/
def rename (id newParent : NodeId) (newName : Bytes) : Except Errc Unit × MetadataTree :=
  if !t.valid id || !t.valid newParent then (.error .notFound, t)
  else if id = root then (.error .invalidArgument, t)
  else if !(t.nodes newParent).isDir then (.error .notADirectory, t)
  else if !validName newName then (.error .invalidPath, t)
  else if t.isAncestor id t.size (some newParent) then (.error .invalidArgument, t)
  else
    let (nid, names) := t.names.intern newName
    let t := { t with names }
    match t.exact (newParent, nid) with
    | some existing => if existing = id then (.ok (), t) else (.error .alreadyExists, t)
    | none =>
      let (fid, names) := internFolded t.names newName nid
      let t := { t with names }
      let t := t.unindexNode id
      let t := t.unlinkChild id
      let t := t.modify id fun n => { n with name := some nid, foldedName := some fid }
      let t := t.linkChild newParent id
      (.ok (), t.indexNode id)

/-- One round of the loop of `lookup`. -/
def lookupStep (mode : LookupMode) (cur : NodeId) (comp : Bytes) : Option NodeId :=
  if comp = [] ∨ comp = dot then some cur
  else if comp = dotdot then some ((t.nodes cur).parent.getD cur)
  else t.findChild cur comp mode

/-- `lookup`. -/
def lookup (path : Bytes) (mode : LookupMode) : Option NodeId :=
  (components path).foldlM (t.lookupStep mode) root

/-- The loop of `ensure_directory_path`. -/
def ensureLoop : MetadataTree → NodeId → List Bytes → Except Errc NodeId × MetadataTree
  | t, cur, [] => (.ok cur, t)
  | t, cur, comp :: comps =>
    if comp = [] ∨ comp = dot then ensureLoop t cur comps
    else if comp = dotdot then (.error .invalidPath, t)
    else
      match t.findChild cur comp .exact with
      | some next =>
        if !(t.nodes next).isDir then (.error .notADirectory, t) else ensureLoop t next comps
      | none =>
        match t.insert cur comp kImplicitDirectory with
        | (.error e, t) => (.error e, t)
        | (.ok created, t) => ensureLoop t created comps

/-- `ensure_directory_path`. -/
def ensureDirectoryPath (path : Bytes) : Except Errc NodeId × MetadataTree :=
  ensureLoop t root (components path)

/-- `upsert_path`. -/
def upsertPath (path : Bytes) (attr : Attributes) : Except Errc NodeId × MetadataTree :=
  let norm := normalizePath path
  if norm = [] then (.error .invalidPath, t)
  else
    let (parent, leaf) := splitParent norm
    match t.ensureDirectoryPath parent with
    | (.error e, t) => (.error e, t)
    | (.ok dir, t) => t.upsert dir leaf attr

/-- `remove_path`. -/
def removePath (path : Bytes) (mode : LookupMode) : Except Errc Unit × MetadataTree :=
  match t.lookup path mode with
  | none => (.error .notFound, t)
  | some id => t.remove id

/-- The loop of `load_snapshot`: the ids of the entries so far, none for a dropped one. -/
def loadLoop : MetadataTree → List (Option NodeId) → List SnapshotEntry →
    Except Errc Unit × MetadataTree
  | t, _, [] => (.ok (), t)
  | t, ids, e :: es =>
    match ids[e.parent.toNat]? with
    | none => (.error .corrupt, t)
    | some none => loadLoop { t with dropped := t.dropped + 1 } (ids ++ [none]) es
    | some (some parent) =>
      match t.insert parent e.name e.attr with
      | (.error _, t) => loadLoop { t with dropped := t.dropped + 1 } (ids ++ [none]) es
      | (.ok id, t) => loadLoop t (ids ++ [some id]) es

/-- `load_snapshot`. -/
def loadSnapshot (entries : List SnapshotEntry) : Except Errc Unit × MetadataTree :=
  loadLoop t.clear [some root] entries

/-- The loop of `path_of`: a node and its ancestors below the root, last first. -/
def chain : ℕ → NodeId → List NodeId
  | 0, _ => []
  | fuel + 1, cur =>
    if cur = root then []
    else
      match (t.nodes cur).parent with
      | none => [cur]
      | some parent => chain fuel parent ++ [cur]

/-- `path_of`. -/
def pathOf (id : NodeId) (sep : UInt8) : Bytes :=
  if !t.valid id || id == root then []
  else (t.chain t.size id).foldl
    (fun out n => if out ≠ [] then out ++ sep :: t.name n else out ++ t.name n) []

end MetadataTree

end WslDrive

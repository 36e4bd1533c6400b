import Besra.Nsurl
import Besra.SetCookie
import Besra.Forest
import Besra.AaTree

/-!
The two trees of the URL database of `netsurf/content/urldb.c` and the search
trees over the first. Hosts hang under `db_root` by the parts of their names, the
last part on top; each has a tree of paths by their segments. A node of either is
named by its address, the keys on the way down to it; a search tree holds the
parts of a host in lower case, its first part first, where the source holds a
pointer to the node.
-/
namespace Besra.UrldbTree
open Lwc NsurlParse CText SetCookie

/-- `url_internal_data` -/
structure UrlData where
  title : Option (List UInt8) := none
  visits : Nat := 0
  lastVisit : Int := 0
  type : Nat := 0
deriving DecidableEq

/-- `path_data`, without its protection space and its fragments. -/
structure PathData where
  scheme : LwcString
  port : Nat
  segment : List UInt8
  url : Option Nsurl := none
  persistent : Bool := false
  urld : UrlData := {}
  cookies : List Cookie := []
deriving DecidableEq

abbrev PathKey := LwcString × Nat × List UInt8

def PathData.key (p : PathData) : PathKey := (p.scheme, p.port, p.segment)

def segments (path : List UInt8) : List (List UInt8) :=
  (if byteAt path 0 = ch '/' then path.tail else path).splitOn (ch '/')

/-- The nodes that `urldb_add_path_node` makes on the way to a path. -/
def pathNodes (scheme : LwcString) (port : Nat) (path : List UInt8) : List PathData :=
  (segments path).map (fun segment => { scheme, port, segment })

def PathData.claim (url : Nsurl) (p : PathData) : PathData :=
  if p.url.isSome then p else { p with url := some (Nsurl.nsurlDefragment url) }

/-- `urldb_add_path`: the tree with the path in it, and the address of the leaf. New nodes go before the first
    sibling with a greater segment. -/
def addPath (scheme : LwcString) (port : Nat) (paths : Forest PathData) (path : List UInt8) (url : Nsurl) :
    Forest PathData × List PathKey :=
  let nodes := pathNodes scheme port path
  let address := nodes.map PathData.key
  let paths := paths.extend PathData.key (fun d e => strcmp e.segment d.segment = .gt) nodes
  (paths.update PathData.key (PathData.claim url) address, address)

/-- `urldb_match_path`, by the segments of the path: a node matches when its segment starts with the one
    sought. Below a node that matched, the search does not come back to its siblings. -/
def matchPath (scheme : LwcString) (port : Nat) : List (List UInt8) → Forest PathData → Option (List PathKey)
  | [], _ => none
  | _ :: _, .null => none
  | segment :: more, .node p children next =>
    if strncmp p.segment segment segment.length = .eq ∧ p.scheme = scheme ∧ p.port = port then
      if more = [] then some [p.key] else (matchPath scheme port more children).map (p.key :: ·)
    else matchPath scheme port (segment :: more) next

structure HstsData where
  expires : Int := 0
  includeSubDomains : Bool := false
deriving DecidableEq

/-- `host_part`; the root of its paths holds the domain cookies. -/
structure HostPart where
  part : List UInt8
  cookies : List Cookie := []
  paths : Forest PathData := .null
  hsts : HstsData := {}
deriving DecidableEq

def HostPart.key (h : HostPart) : List UInt8 := insensitive h.part

/-- `urldb__host_is_ip_address` -/
def hostIsIpAddress (host : List UInt8) : Bool :=
  let sane := host.takeWhile (· ≠ ch '/')
  sane.all ((lit "0123456789abcdefABCDEF[].:").contains ·) &&
    if inetAton sane then sane.count (ch '.') = 3
    else 6 ≤ sane.length && byteAt sane 0 = ch '[' && sane.getLast? = some (ch ']') &&
      inetPton6 ((slice sane 1 (sane.length - 1)).take 63)

/-- `urldb_get_search_tree_direct`, as an index. -/
def getSearchTree (host : List UInt8) : Nat :=
  if hostIsIpAddress host then 0
  else if isAlpha (byteAt host 0) then 2 + (dolower (byteAt host 0) - ch 'a').toNat
  else 1

abbrev HostName := List (List UInt8)

def parts (host : List UInt8) : List (List UInt8) := host.splitOn (ch '.')

/-- The parts of a host node and its parents against those of a string, for `urldb_search_match_string`. -/
def matchParts : HostName → List (List UInt8) → Ordering
  | a :: as, b :: bs =>
    match strncasecmp a b b.length with
    | .eq => if a.length > b.length then .gt else if a.length < b.length then .lt else matchParts as bs
    | different => different
  | _ :: _, [] => .gt
  | [], _ :: _ => .lt
  | [], [] => .eq

/-- `urldb_search_match_string` -/
def searchMatchString (host : List UInt8) (a : HostName) : Ordering :=
  if hostIsIpAddress host then strcasecmp (a.headD []) host else matchParts a (parts host)

/-- `urldb_search_find` -/
def searchFind (tree : AaTree HostName) (host : List UInt8) : Option HostName := tree.find (searchMatchString host)

/-- The size of the buffer in `urldb_add_host`. -/
def hostBuffer : Nat := 256

/-- The host tree with the search trees over it. -/
structure Hosts where
  tree : Forest HostPart := .null
  search : Nat → AaTree HostName := fun _ => .empty

/-- The nodes that `urldb_add_host_node` makes on the way to a host. -/
def hostNodes (labels : List (List UInt8)) : List HostPart := labels.reverse.map (fun part => { part })

/-- The host in the tree, under the parts in `labels`; new nodes go before their siblings. -/
def Hosts.grow (hosts : Hosts) (labels : List (List UInt8)) : Forest HostPart :=
  hosts.tree.extend HostPart.key (fun _ _ => true) (hostNodes labels)

/-- `urldb_search_insert` -/
def Hosts.index (hosts : Hosts) (tree : Nat) (name : HostName) : Nat → AaTree HostName :=
  Function.update hosts.search tree ((hosts.search tree).insert name)

/-- `urldb_add_host` -/
def addHost (hosts : Hosts) (host : List UInt8) : Hosts × HostName :=
  if hostIsIpAddress host then
    let name := [insensitive host]
    if (hosts.tree.find HostPart.key (insensitive host)).isSome then (hosts, name)
    else ({ tree := hosts.grow [host], search := hosts.index 0 name }, name)
  else
    let labels := parts (host.take (hostBuffer - 1))
    let name := labels.map insensitive
    ({ tree := hosts.grow labels, search := hosts.index (getSearchTree (labels.headD [])) name }, name)

def Hosts.modify (hosts : Hosts) (name : HostName) (f : HostPart → HostPart) : Hosts :=
  { hosts with tree := hosts.tree.update HostPart.key f name.reverse }

def Hosts.get (hosts : Hosts) (name : HostName) : Option HostPart := hosts.tree.lookup HostPart.key name.reverse

end Besra.UrldbTree

import Besra.Urldb

/-!
The operations of `netsurf/content/urldb.c` on the data of a URL, and histories of them
with those on cookies. A protection space and the permission for a certificate have no
part in the model; what they add to the database is a URL.
-/
namespace Besra.UrldbData
open Lwc NsurlParse CText SetCookie UrldbTree Urldb

def node (hosts : Hosts) (place : Place) : Option PathData :=
  (hosts.get place.host).bind (fun h => h.paths.lookup PathData.key place.path)

def modifyNode (hosts : Hosts) (place : Place) (f : PathData → PathData) : Hosts :=
  hosts.modify place.host (fun h => { h with paths := h.paths.update PathData.key f place.path })

def changeFound (db : Db) (url : Nsurl) (f : PathData → PathData) : Option (Bool × Db) :=
  (findUrl db url).map (fun found =>
    found.elim (false, db) (fun place => (true, { db with hosts := modifyNode db.hosts place f })))

/-- `urldb_set_url_persistence` -/
def setUrlPersistence (db : Db) (url : Nsurl) (persist : Bool) : Option (Bool × Db) :=
  changeFound db url (fun p => { p with persistent := persist })

/-- `urldb_set_url_title` -/
def setUrlTitle (db : Db) (url : Nsurl) (title : Option (List UInt8)) : Option (Bool × Db) :=
  changeFound db url (fun p => { p with urld := { p.urld with title } })

/-- `urldb_set_url_content_type` -/
def setUrlContentType (db : Db) (url : Nsurl) (type : Nat) : Option (Bool × Db) :=
  changeFound db url (fun p => { p with urld := { p.urld with type } })

/-- `urldb_update_url_visit_data`; the count of the visits is an `unsigned int`. -/
def updateUrlVisitData (now : Int) (db : Db) (url : Nsurl) : Option (Bool × Db) :=
  changeFound db url (fun p =>
    { p with urld := { p.urld with lastVisit := now, visits := (p.urld.visits + 1) % 2 ^ 32 } })

/-- `urldb_reset_url_visit_data` -/
def resetUrlVisitData (db : Db) (url : Nsurl) : Option (Bool × Db) :=
  changeFound db url (fun p => { p with urld := { p.urld with lastVisit := 0, visits := 0 } })

/-- "add url, in case it's missing", as `urldb_set_auth_details` and `urldb_set_cert_permissions` begin. -/
def addMissing (db : Db) (url : Nsurl) : Option Db :=
  (findUrl (addUrl db url).2 url).map (fun _ => (addUrl db url).2)

/-- `urldb_set_hsts_policy`; `change` is what the header makes of the policy of the host. -/
def setHstsPolicy (db : Db) (url : Nsurl) (change : HstsData → HstsData) : Option Db :=
  match url.components.host with
  | none => some db
  | some host =>
    if hostIsIpAddress (cString host) ∨ host = [] then some db
    else
      (findUrl (addUrl db url).2 url).map (fun found =>
        found.elim (addUrl db url).2 (fun place =>
          { (addUrl db url).2 with
            hosts := (addUrl db url).2.hosts.modify place.host (fun h => { h with hsts := change h.hsts }) }))

inductive UrlOp where
  | cookies (op : Op)
  | setUrlPersistence (url : Nsurl) (persist : Bool)
  | setUrlTitle (url : Nsurl) (title : Option (List UInt8))
  | setUrlContentType (url : Nsurl) (type : Nat)
  | updateUrlVisitData (url : Nsurl)
  | resetUrlVisitData (url : Nsurl)
  | addMissing (url : Nsurl)
  | setHstsPolicy (url : Nsurl) (change : HstsData → HstsData)

/-- An operation and the time at which it is called. -/
structure UrlCall where
  now : Int
  op : UrlOp

def urlStep (env : Env) (db : Db) (call : UrlCall) : Option Db :=
  match call.op with
  | .cookies op => step env db ⟨call.now, op⟩
  | .setUrlPersistence url persist => (setUrlPersistence db url persist).map Prod.snd
  | .setUrlTitle url title => (setUrlTitle db url title).map Prod.snd
  | .setUrlContentType url type => (setUrlContentType db url type).map Prod.snd
  | .updateUrlVisitData url => (updateUrlVisitData call.now db url).map Prod.snd
  | .resetUrlVisitData url => (resetUrlVisitData db url).map Prod.snd
  | .addMissing url => addMissing db url
  | .setHstsPolicy url change => setHstsPolicy db url change

/-- The database after a history, if every call of it returns. -/
def urlRun (env : Env) (history : List UrlCall) : Option Db := history.foldlM (urlStep env) {}

end Besra.UrldbData

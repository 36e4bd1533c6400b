import Besra.StrictTransportSecurity
import Besra.UrldbLookup

/-!
The HSTS policies of `netsurf/content/urldb.c`: a host keeps when its policy expires and whether
it includes the domains below, and a request looks at the host of its URL and at those above it.
The answer follows the latest header of each host (`enabled_by_latest`) as long as no header
makes a policy end earlier than it would: `urldb_set_hsts_policy` does not bring the end forward.
-/
namespace Besra.Hsts
open Lwc NsurlParse CText UrldbTree Urldb HostNames UrldbFind List Option
open StrictTransportSecurity

/-- The database, with the hosts that have `permit_invalid_certs`. -/
structure HstsDb where
  db : Db := {}
  permitInvalidCerts : HostName → Bool := fun _ => false

def applySts (now : Int) (sts : Sts) (hsts : HstsData) : HstsData :=
  if sts.maxAge = 0 then { expires := 0, includeSubDomains := false }
  else if now + sts.maxAge.toNat > hsts.expires then ⟨now + sts.maxAge.toNat, sts.includeSubDomains⟩
  else { hsts with includeSubDomains := sts.includeSubDomains }

/-- The host of a URL as a policy may be for it: it is there, and is neither blank nor an IP address. -/
def policyHost (url : Nsurl) : Option LwcString :=
  match url.components.host with
  | some host => if hostIsIpAddress (cString host) ∨ host = [] then none else some (cString host)
  | none => none

/-- `urldb_set_hsts_policy` -/
def setHstsPolicy (now : Int) (s : HstsDb) (url : Nsurl) (header : List UInt8) : Option HstsDb :=
  match policyHost url with
  | none => some s
  | some _ =>
    let db := (addUrl s.db url).2
    (findUrl db url).map fun
      | none => { s with db }
      | some place =>
        if s.permitInvalidCerts place.host then { s with db }
        else
          match parseStrictTransportSecurity header with
          | none => { s with db }
          | some sts =>
            { s with db := { db with hosts := db.hosts.modify place.host fun h => { h with hsts := applySts now sts h.hsts } } }

def policyOf (hosts : Hosts) (name : HostName) : HstsData := ((hosts.get name).map HostPart.hsts).getD {}

def enabledAbove (now : Int) (hosts : Hosts) : HostName → Bool
  | [] => false
  | [_] => false
  | _ :: parent =>
    (decide ((policyOf hosts parent).expires > now) && (policyOf hosts parent).includeSubDomains) ||
      enabledAbove now hosts parent

/-- `urldb_get_hsts_enabled` -/
def getHstsEnabled (now : Int) (s : HstsDb) (url : Nsurl) : Option (Bool × HstsDb) :=
  match policyHost url with
  | none => some (false, s)
  | some _ =>
    let db := (addUrl s.db url).2
    (findUrl db url).map fun
      | none => (false, { s with db })
      | some place =>
        (decide ((policyOf db.hosts place.host).expires > now) || enabledAbove now db.hosts place.host, { s with db })

/-- `urldb_set_cert_permissions` -/
def setCertPermissions (s : HstsDb) (url : Nsurl) (permit : Bool) : Option HstsDb :=
  let db := (addUrl s.db url).2
  (findUrl db url).map fun
    | none => { s with db }
    | some place => { db, permitInvalidCerts := Function.update s.permitInvalidCerts place.host permit }

inductive Op where
  | setHstsPolicy (url : Nsurl) (header : List UInt8)
  | getHstsEnabled (url : Nsurl)
  | setCertPermissions (url : Nsurl) (permit : Bool)

/-- An operation and the time at which it is called. -/
structure Call where
  now : Int
  op : Op

def step (s : HstsDb) (call : Call) : Option HstsDb :=
  match call.op with
  | .setHstsPolicy url header => setHstsPolicy call.now s url header
  | .getHstsEnabled url => (getHstsEnabled call.now s url).map Prod.snd
  | .setCertPermissions url permit => setCertPermissions s url permit

/-- The database after a history, if every call of it returns. -/
def run (history : List Call) : Option HstsDb := history.foldlM step {}

structure Policy where
  arrival : Int
  sts : Sts

def Policy.ends (p : Policy) : Int := p.arrival + p.sts.maxAge.toNat

/-- What a history says of the hosts: the latest header that was accepted for each, and whether it is tainted. -/
structure Known where
  latest : HostName → Option Policy := fun _ => none
  tainted : HostName → Bool := fun _ => false

def note (known : Known) (call : Call) : Known :=
  match call.op with
  | .setHstsPolicy url header =>
    match policyHost url with
    | none => known
    | some host =>
      if known.tainted (nameOf host) then known
      else
        match parseStrictTransportSecurity header with
        | none => known
        | some sts => { known with latest := Function.update known.latest (nameOf host) (some ⟨call.now, sts⟩) }
  | .getHstsEnabled _ => known
  | .setCertPermissions url permit =>
    match hostStr url.components with
    | none => known
    | some host => { known with tainted := Function.update known.tainted (nameOf host) permit }

def noted (history : List Call) : Known := history.foldl note {}

/-- The host has a policy that has not ended, or a domain above it has one that includes it. -/
def Enabled (known : Known) (host : LwcString) (t : Int) : Prop :=
  (∃ p, known.latest (nameOf host) = some p ∧ p.ends > t) ∨
    ∃ name p, name ≠ [] ∧ name <:+ nameOf host ∧ name ≠ nameOf host ∧ known.latest name = some p ∧ p.ends > t ∧
      p.sts.includeSubDomains = true

def Filed (url : Nsurl) : Prop := ∃ scheme host path, Fileable url scheme host path

def Lengthens (known : Known) (now : Int) (host : LwcString) (header : List UInt8) : Prop :=
  known.tainted (nameOf host) = false → ∀ sts, parseStrictTransportSecurity header = some sts → sts.maxAge ≠ 0 →
    ∀ p, known.latest (nameOf host) = some p → p.ends ≤ now + sts.maxAge.toNat

/-- A call that does what its history says: its URL can be filed, and its header does not shorten a policy. -/
def Meets (known : Known) (call : Call) : Prop :=
  match call.op with
  | .setHstsPolicy url header => ∀ host, policyHost url = some host → Filed url ∧ Lengthens known call.now host header
  | .getHstsEnabled url => ∀ host, policyHost url = some host → Filed url
  | .setCertPermissions url _ => ∀ host, hostStr url.components = some host → Filed url

def Careful (history : List Call) : Prop := ∀ done call, done ++ [call] <+: history → Meets (noted done) call

theorem policyOf_addHost (hosts : Hosts) (wf : WellFormed hosts) (host : List UInt8) (name : HostName) :
    policyOf (addHost hosts host).1 name = policyOf hosts name := by
  have grown : ∀ labels search, policyOf ⟨hosts.grow labels, search⟩ name = policyOf hosts name := by
    intro labels search
    rw [policyOf, policyOf, Hosts.get, Hosts.get]
    dsimp only
    rcases there : hosts.tree.lookup HostPart.key name.reverse with _ | h
    · rcases found : (hosts.grow labels).lookup HostPart.key name.reverse with _ | h
      · rfl
      rcases Forest.mem_entries_extend (Forest.mem_entries_of_lookup HostPart.key found) with old | ⟨_, ⟨_, on⟩, -⟩
      · have again := Forest.lookup_of_mem_entries wf.distinct (fun _ => not_not_intro rfl) old
        rw [there] at again
        cases again
      · have new : h ∈ hostNodes labels := by
          rw [← on]
          simp
        obtain ⟨part, -, rfl⟩ := List.mem_map.mp new
        rfl
    · rw [Hosts.grow, Forest.lookup_extend_of_some there]
  unfold addHost
  split
  · dsimp only
    split
    · rfl
    · exact grown _ _
  · exact grown _ _

variable {hosts : Hosts} {name : HostName} {url : Nsurl} {scheme host path : List UInt8} {db : Db} {known : Known}
  {now t : Int} {s : HstsDb}

theorem policyOf_modify {f : HostPart → HostPart} (keeps : ∀ h, (f h).part = h.part) (other : HostName) :
    policyOf (hosts.modify name f) other =
      if other = name then ((hosts.get other).map fun h => (f h).hsts).getD {} else policyOf hosts other := by
  rw [policyOf, get_modify keeps]
  split
  · rw [Option.map_map]
    rfl
  · rfl

theorem policyOf_addUrl (wf : WellFormed db.hosts) (fileable : Fileable url scheme host path) (name : HostName) :
    policyOf (addUrl db url).2.hosts name = policyOf db.hosts name := by
  rw [hosts_addUrl fileable, addPathAt, policyOf_modify (by exact fun _ => rfl), ← policyOf_addHost db.hosts wf host]
  split
  · rfl
  · rfl

theorem wellFormed_addUrl (wf : WellFormed db.hosts) (fileable : Fileable url scheme host path) :
    WellFormed (addUrl db url).2.hosts := by
  rw [hosts_addUrl fileable]
  exact wellFormed_addPathAt (wellFormed_addHost wf fileable.plain)

/-- The data that a policy leaves at its host. -/
def Policy.data (p : Policy) : HstsData :=
  if p.sts.maxAge = 0 then {} else ⟨p.ends, p.sts.includeSubDomains⟩

/-- The database has what is known of the hosts, at a time. -/
structure Agrees (known : Known) (s : HstsDb) (now : Int) : Prop where
  wf : WellFormed s.db.hosts
  tainted : s.permitInvalidCerts = known.tainted
  policies : ∀ name, policyOf s.db.hosts name = ((known.latest name).map Policy.data).getD {}
  past : ∀ name p, known.latest name = some p → p.arrival ≤ now
  begun : 0 ≤ now

theorem policyOf_empty (name : HostName) : policyOf {} name = {} := by
  rw [policyOf, Hosts.get]
  rcases name.reverse with _ | ⟨k, ks⟩
  · rfl
  · rfl

theorem agrees_empty : Agrees {} {} 0 :=
  ⟨wellFormed_empty, rfl, policyOf_empty, fun _ _ unknown => (by cases unknown), Int.le_refl 0⟩

theorem Agrees.later (agrees : Agrees known s now) (later : now ≤ t) : Agrees known s t :=
  ⟨agrees.wf, agrees.tainted, agrees.policies, fun name p found => le_trans (agrees.past name p found) later,
    le_trans agrees.begun later⟩

theorem Agrees.addUrl (agrees : Agrees known s now) (fileable : Fileable url scheme host path) :
    Agrees known { s with db := (addUrl s.db url).2 } now :=
  ⟨wellFormed_addUrl agrees.wf fileable, agrees.tainted,
    fun name => (policyOf_addUrl agrees.wf fileable name).trans (agrees.policies name), agrees.past, agrees.begun⟩

theorem hostStr_of_policyHost {host : LwcString} (found : policyHost url = some host) :
    hostStr url.components = some host := by
  unfold policyHost at found
  split at found
  next host' there =>
    split at found
    · cases found
    · rw [hostStr, there]
      exact found
  next => cases found

theorem applySts_eq {sts : Sts} {latest : Option Policy} (begun : 0 ≤ now)
    (lengthens : sts.maxAge ≠ 0 → ∀ p, latest = some p → p.ends ≤ now + sts.maxAge.toNat) :
    applySts now sts ((latest.map Policy.data).getD {}) = Policy.data ⟨now, sts⟩ := by
  rw [applySts, Policy.data, Policy.ends]
  by_cases revoked : sts.maxAge = 0
  · rw [if_pos revoked, if_pos revoked]
  rw [if_neg revoked, if_neg revoked]
  have positive : 0 < sts.maxAge.toNat := by
    rcases Nat.eq_zero_or_pos sts.maxAge.toNat with zero | positive
    · exact absurd (UInt32.toNat_inj.mp zero) revoked
    · exact positive
  have expires : ((latest.map Policy.data).getD {}).expires ≤ now + sts.maxAge.toNat := by
    rcases latest with _ | p
    · change (0 : Int) ≤ _
      omega
    · rw [map_some, getD_some, Policy.data]
      split
      · change (0 : Int) ≤ _
        omega
      · exact lengthens revoked p rfl
  split
  · rfl
  next notLater =>
    have same := le_antisymm expires (not_lt.mp notLater)
    rw [same]

theorem Agrees.setHstsPolicy (agrees : Agrees known s now) {header : List UInt8}
    (meets : Meets known ⟨now, .setHstsPolicy url header⟩) :
    ∃ s', setHstsPolicy now s url header = some s' ∧ Agrees (note known ⟨now, .setHstsPolicy url header⟩) s' now := by
  unfold Hsts.setHstsPolicy note
  dsimp only
  rcases found : policyHost url with _ | host
  · exact ⟨s, rfl, agrees⟩
  obtain ⟨⟨scheme, host', path, fileable⟩, lengthens⟩ := meets host found
  obtain rfl := some_inj.mp (fileable.hostIs.symm.trans (hostStr_of_policyHost found))
  dsimp only
  rw [findUrl_addUrl agrees.wf fileable, map_some]
  refine ⟨_, rfl, ?_⟩
  have added := agrees.addUrl fileable
  have place : (placeOf url scheme host' path).host = nameOf host' := rfl
  have taint : s.permitInvalidCerts (nameOf host') = known.tainted (nameOf host') := by rw [agrees.tainted]
  dsimp only
  rw [place, taint]
  split
  · exact added
  next untainted =>
    rcases accepted : parseStrictTransportSecurity header with _ | sts
    · exact added
    dsimp only
    obtain ⟨h, there, -⟩ := get_addUrl agrees.wf fileable
    have before := added.policies (nameOf host')
    rw [policyOf, there, map_some, getD_some] at before
    refine ⟨wellFormed_modify added.wf (fun _ => rfl) (fun _ ordered => ordered), added.tainted, ?_, ?_, agrees.begun⟩
    · intro name
      dsimp only
      rw [policyOf_modify (by exact fun _ => rfl)]
      split
      next same =>
        subst same
        rw [there, map_some, getD_some, Function.update_self, map_some, getD_some, before]
        exact applySts_eq agrees.begun (fun positive => lengthens (by simpa using untainted) sts accepted positive)
      next other =>
        rw [Function.update_of_ne other]
        exact added.policies name
    · intro name p latest
      dsimp only at latest
      by_cases same : name = nameOf host'
      · subst same
        rw [Function.update_self, some_inj] at latest
        rw [← latest]
      · rw [Function.update_of_ne same] at latest
        exact agrees.past name p latest

theorem Agrees.setCertPermissions (agrees : Agrees known s now) {permit : Bool}
    (meets : Meets known ⟨now, .setCertPermissions url permit⟩) :
    ∃ s', setCertPermissions s url permit = some s' ∧
      Agrees (note known ⟨now, .setCertPermissions url permit⟩) s' now := by
  unfold Hsts.setCertPermissions note
  dsimp only
  rcases found : hostStr url.components with _ | host
  · have unfiled : (Urldb.addUrl s.db url).2.hosts = s.db.hosts := by
      unfold Urldb.addUrl
      dsimp only
      rw [found]
      split
      next impossible => cases impossible
      next => rfl
    rw [findUrl_hostless found, map_some]
    refine ⟨_, rfl, ?_, agrees.tainted, ?_, agrees.past, agrees.begun⟩
    · exact unfiled ▸ agrees.wf
    · intro name
      dsimp only
      rw [unfiled]
      exact agrees.policies name
  obtain ⟨scheme, host', path, fileable⟩ := meets host found
  obtain rfl := some_inj.mp (fileable.hostIs.symm.trans found)
  rw [findUrl_addUrl agrees.wf fileable, map_some]
  have added := agrees.addUrl fileable
  refine ⟨_, rfl, added.wf, ?_, added.policies, agrees.past, agrees.begun⟩
  dsimp only
  rw [agrees.tainted]
  rfl

theorem Agrees.getHstsEnabled (agrees : Agrees known s now) (filed : ∀ host, policyHost url = some host → Filed url) :
    ∃ answer s', getHstsEnabled now s url = some (answer, s') ∧ Agrees known s' now := by
  unfold Hsts.getHstsEnabled
  rcases found : policyHost url with _ | host
  · exact ⟨_, s, rfl, agrees⟩
  obtain ⟨scheme, host', path, fileable⟩ := filed host found
  dsimp only
  rw [findUrl_addUrl agrees.wf fileable]
  exact ⟨_, _, rfl, agrees.addUrl fileable⟩

theorem Agrees.step {known : Known} {s : HstsDb} {last : Int} (agrees : Agrees known s last) {call : Call}
    (later : last ≤ call.now) (meets : Meets known call) :
    ∃ s', step s call = some s' ∧ Agrees (note known call) s' call.now := by
  obtain ⟨now, op⟩ := call
  have agrees := agrees.later later
  cases op with
  | setHstsPolicy url header => exact agrees.setHstsPolicy meets
  | getHstsEnabled url =>
    obtain ⟨answer, s', asked, agrees'⟩ := agrees.getHstsEnabled meets
    exact ⟨s', map_eq_some_iff.mpr ⟨_, asked, rfl⟩, agrees'⟩
  | setCertPermissions url permit => exact agrees.setCertPermissions meets

/-- The calls are at times that do not go back, from 0 to a last time. -/
def Timed (history : List Call) (t : Int) : Prop := (0 :: (history.map Call.now ++ [t])).Pairwise (· ≤ ·)

theorem agrees_run {history : List Call} (careful : Careful history) (timed : Timed history t) :
    ∃ s, run history = some s ∧ Agrees (noted history) s t := by
  induction history using List.reverseRecOn generalizing t with
  | nil =>
    have begun : 0 ≤ t := (pairwise_cons.mp timed).1 t (by simp)
    exact ⟨{}, rfl, agrees_empty.later begun⟩
  | append_singleton history call ih =>
    have earlier : Careful history := fun done call' begins => careful done call' (begins.trans (prefix_append _ _))
    have timed' : Timed history call.now := timed.sublist (by simp [map_append])
    have last : call.now ≤ t := by
      rw [Timed, map_append, map_singleton, append_assoc, singleton_append, ← cons_append] at timed
      exact (pairwise_cons.mp (pairwise_append.mp timed).2.1).1 t (by simp)
    obtain ⟨s, ran, agrees⟩ := ih earlier timed'
    obtain ⟨s', stepped, agrees'⟩ := agrees.step (Int.le_refl _) (careful history call (prefix_refl _))
    refine ⟨s', ?_, ?_⟩
    · rw [run, foldlM_append, ← run, ran]
      change Hsts.step s call >>= pure = some s'
      rw [stepped]
      rfl
    · rw [noted, foldl_append]
      exact agrees'.later last

theorem enabledAbove_iff : enabledAbove now hosts name = true ↔
    ∃ parent, parent ≠ [] ∧ parent <:+ name ∧ parent ≠ name ∧ (policyOf hosts parent).expires > now ∧
      (policyOf hosts parent).includeSubDomains = true := by
  induction name with
  | nil =>
    refine ⟨fun none => (by cases none), ?_⟩
    rintro ⟨parent, nonempty, above, -⟩
    exact absurd (suffix_nil.mp above) nonempty
  | cons part parent ih =>
    have above_iff : ∀ name, name <:+ part :: parent ∧ name ≠ part :: parent ↔ name <:+ parent := by
      intro name
      rw [suffix_cons_iff]
      constructor
      · rintro ⟨same | above, other⟩
        · exact absurd same other
        · exact above
      · intro above
        refine ⟨.inr above, ?_⟩
        rintro rfl
        have short := above.length_le
        simp at short
    have regroup : (∃ name, name ≠ [] ∧ name <:+ part :: parent ∧ name ≠ part :: parent ∧
        (policyOf hosts name).expires > now ∧ (policyOf hosts name).includeSubDomains = true) ↔
        ∃ name, name ≠ [] ∧ name <:+ parent ∧ (policyOf hosts name).expires > now ∧
          (policyOf hosts name).includeSubDomains = true := by
      refine exists_congr fun name => and_congr_right fun _ => ?_
      rw [← and_assoc, above_iff]
    rw [regroup]
    rcases parent with _ | ⟨next, rest⟩
    · refine ⟨fun none => (by cases none), ?_⟩
      rintro ⟨name, nonempty, above, -⟩
      exact absurd (suffix_nil.mp above) nonempty
    · rw [enabledAbove, Bool.or_eq_true, Bool.and_eq_true, decide_eq_true_eq, ih]
      · constructor
        · rintro (⟨ends, included⟩ | ⟨name, nonempty, above, -, more⟩)
          · exact ⟨_, by simp, suffix_refl _, ends, included⟩
          · exact ⟨name, nonempty, above, more⟩
        · rintro ⟨name, nonempty, above, ends, included⟩
          by_cases same : name = next :: rest
          · subst same
            exact .inl ⟨ends, included⟩
          · exact .inr ⟨name, nonempty, above, same, ends, included⟩
      · simp

theorem Agrees.expires_iff (agrees : Agrees known s now) (name : HostName) :
    ((policyOf s.db.hosts name).expires > now ↔ ∃ p, known.latest name = some p ∧ p.ends > now) ∧
      ((policyOf s.db.hosts name).expires > now ∧ (policyOf s.db.hosts name).includeSubDomains = true ↔
        ∃ p, known.latest name = some p ∧ p.ends > now ∧ p.sts.includeSubDomains = true) := by
  have begun := agrees.begun
  rw [agrees.policies name]
  rcases latest : known.latest name with _ | p
  · refine ⟨⟨fun after => ?_, fun ⟨p, unknown, _⟩ => (by cases unknown)⟩,
      ⟨fun ⟨after, _⟩ => ?_, fun ⟨p, unknown, _⟩ => (by cases unknown)⟩⟩
    · change (0 : Int) > now at after
      omega
    · change (0 : Int) > now at after
      omega
  · have past := agrees.past name p latest
    rw [map_some, getD_some, Policy.data]
    simp only [Option.some.injEq, exists_eq_left']
    split
    next revoked =>
      have ended : ¬ p.ends > now := by
        rw [Policy.ends, revoked]
        simpa using past
      have ended' : ¬ (0 : Int) > now := by omega
      exact ⟨iff_of_false ended' ended, iff_of_false (fun both => ended' both.1) (fun both => ended both.1)⟩
    next => exact ⟨Iff.rfl, Iff.rfl⟩

/-- After a history of careful calls at times that do not go back, HSTS is enabled for a URL exactly when its host, or with
the domains below a domain above it, has a latest policy that has not ended. -/
theorem enabled_by_latest (history : List Call) (careful : Careful history) (url : Nsurl) (t : Int)
    (timed : Timed history t) (filed : ∀ host, policyHost url = some host → Filed url) :
    ∃ s answer s', run history = some s ∧ getHstsEnabled t s url = some (answer, s') ∧
      (answer = true ↔ ∃ host, policyHost url = some host ∧ Enabled (noted history) host t) := by
  obtain ⟨s, ran, agrees⟩ := agrees_run careful timed
  unfold Hsts.getHstsEnabled
  rcases found : policyHost url with _ | host
  · exact ⟨s, false, s, ran, rfl, by simp⟩
  obtain ⟨scheme, host', path, fileable⟩ := filed host found
  obtain rfl := some_inj.mp (fileable.hostIs.symm.trans (hostStr_of_policyHost found))
  refine ⟨s, _, _, ran, map_eq_some_iff.mpr ⟨_, findUrl_addUrl agrees.wf fileable, rfl⟩, ?_⟩
  have added := agrees.addUrl fileable
  have place : (placeOf url scheme host' path).host = nameOf host' := rfl
  rw [place, Bool.or_eq_true, decide_eq_true_eq, enabledAbove_iff]
  simp only [Option.some.injEq, exists_eq_left', Enabled]
  refine or_congr (added.expires_iff _).1 ?_
  constructor
  · rintro ⟨name, nonempty, above, other, enabled⟩
    obtain ⟨p, latest, ends, included⟩ := (added.expires_iff name).2.mp enabled
    exact ⟨name, p, nonempty, above, other, latest, ends, included⟩
  · rintro ⟨name, p, nonempty, above, other, latest, ends, included⟩
    exact ⟨name, nonempty, above, other, (added.expires_iff name).2.mpr ⟨p, latest, ends, included⟩⟩

/-- The page of a domain, and one of a host below it. -/
def domainUrl : Nsurl := urlOf (lit "https://example.org/")
def hostUrl : Nsurl := urlOf (lit "https://www.example.org/")

theorem filed_example (host : LwcString) (schemeIs : url.components.scheme = some (lit "https"))
    (hostIs : hostStr url.components = some host) (plain : Plain host)
    (pathIs : pathQuery url.components = some (lit "/")) (portIs : url.components.port = none) : Filed url := by
  refine ⟨lit "https", host, lit "/", schemeIs, by decide, hostIs, plain, pathIs, by decide, ?_⟩
  rw [portInt, portIs]
  decide

theorem domainUrl_filed : Filed domainUrl :=
  filed_example (lit "example.org") (by decide +kernel) (by decide +kernel)
    (fun _ => ⟨by decide +kernel, by decide +kernel⟩) (by decide +kernel) (by decide +kernel)

theorem hostUrl_filed : Filed hostUrl :=
  filed_example (lit "www.example.org") (by decide +kernel) (by decide +kernel)
    (fun _ => ⟨by decide +kernel, by decide +kernel⟩) (by decide +kernel) (by decide +kernel)

/-- A policy of the domain that includes those below, and one that makes it last longer. -/
def first : Call := ⟨10, .setHstsPolicy domainUrl (lit "max-age=5; includeSubDomains")⟩
def renewed : Call := ⟨12, .setHstsPolicy domainUrl (lit "max-age=100; includeSubDomains")⟩

theorem renewed_lengthens (host : LwcString) (found : policyHost domainUrl = some host) :
    Lengthens (noted [first]) 12 host (lit "max-age=100; includeSubDomains") := by
  intro _ sts parsed _ p latest
  have name : (policyHost domainUrl).map nameOf = some [lit "example", lit "org"] := by decide +kernel
  rw [found, map_some, some_inj] at name
  have ends : ((noted [first]).latest [lit "example", lit "org"]).map Policy.ends = some 15 := by decide +kernel
  rw [← name, latest, map_some, some_inj] at ends
  have age : (parseStrictTransportSecurity (lit "max-age=100; includeSubDomains")).map (fun sts => sts.maxAge.toNat) =
      some 100 := by decide +kernel
  rw [parsed, map_some, some_inj] at age
  rw [ends, age]
  decide

theorem enabled_by_latest_of_domain :
    ∃ s answer s', run [first, renewed] = some s ∧ getHstsEnabled 50 s hostUrl = some (answer, s') ∧
      (answer = true ↔ ∃ host, policyHost hostUrl = some host ∧ Enabled (noted [first, renewed]) host 50) := by
  refine enabled_by_latest [first, renewed] ?_ hostUrl 50 (by unfold Timed; decide) (fun _ _ => hostUrl_filed)
  intro done call begins
  rcases done with _ | ⟨one, _ | ⟨two, done⟩⟩
  · obtain rfl : call = first := (cons_prefix_cons.mp begins).1
    exact fun host found => ⟨domainUrl_filed, fun _ _ _ _ p latest => by cases latest⟩
  · obtain ⟨rfl, rest⟩ := cons_prefix_cons.mp begins
    obtain rfl : call = renewed := (cons_prefix_cons.mp rest).1
    exact fun host found => ⟨domainUrl_filed, renewed_lengthens host found⟩
  · have short := begins.length_le
    simp at short

/-- A policy for a long time, and then one for a short time. -/
def shortened : List Call :=
  [⟨0, .setHstsPolicy domainUrl (lit "max-age=100")⟩, ⟨1, .setHstsPolicy domainUrl (lit "max-age=10")⟩]

/-- The policy of the second header has ended, and that of the first is still in force. -/
theorem longer_policy_stays :
    Timed shortened 50 ∧ ((run shortened).bind fun s => (getHstsEnabled 50 s domainUrl).map Prod.fst) = some true ∧
      ¬ ∃ host, policyHost domainUrl = some host ∧ Enabled (noted shortened) host 50 := by
  refine ⟨by unfold Timed; decide, by decide +kernel, ?_⟩
  rintro ⟨host, found, enabled⟩
  have name : (policyHost domainUrl).map nameOf = some [lit "example", lit "org"] := by decide +kernel
  rw [found, map_some, some_inj] at name
  rw [Enabled, name] at enabled
  rcases enabled with ⟨p, latest, ends⟩ | ⟨other, p, nonempty, above, proper, latest, -⟩
  · have last : ((noted shortened).latest [lit "example", lit "org"]).map (fun p => decide (p.ends > 50)) = some false := by
      decide +kernel
    rw [latest, map_some, some_inj] at last
    exact of_decide_eq_false last ends
  · have unknown : ((noted shortened).latest [lit "org"]).isNone = true := by decide +kernel
    simp only [suffix_cons_iff, suffix_nil] at above
    rcases above with same | same | same
    · exact proper same
    · rw [same] at latest
      rw [latest] at unknown
      cases unknown
    · exact nonempty same

end Besra.Hsts

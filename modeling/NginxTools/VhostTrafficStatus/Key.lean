import NginxTools.VhostTrafficStatus.Node
import Mathlib.Data.List.Basic

/-!
# The keys of the traffic status module

A key is the name of its group, a separator, and what the group counts by: the server name, the
upstream and its server, the name of a cache. The key of a filter has the filter's name and its
value there, with a separator between them. A key is put together by
`ngx_http_vhost_traffic_status_node_generate_key`, and the part at a position is taken out by
`ngx_http_vhost_traffic_status_node_position_key`:

    while (--n) {
        if (*p == NGX_HTTP_VHOST_TRAFFIC_STATUS_KEY_SEPARATOR) {
            if (pos == c) {
                break;
            }
            s = (p + 1);
            c++;
        }
        p++;
        len = (p - s);
    }

    if (pos > c || len == 0) {
        return NGX_ERROR;
    }

## The model

`positionFrom` is the loop, with the pointers as indices of the buffer. `handlerKeys` has the keys
under which `ngx_http_vhost_traffic_status_handler` accounts a request, in order: of its server, of
its upstream, of the filters of the main configuration and of the location, and of its cache. The
values of the filters' variables are given, and that one of them fails. That memory of the request's
pool cannot be had is left out.

## What is proved

The loop splits the buffer at the separators, whatever is in it (`positionKey_eq`). **What is put
together is taken apart**: the group is at the first position of a key and the rest after it, and no
two keys of the handler are the same by chance (`key_roundTrip`). Every key of the handler is of
that form (`handlerKeys_spec`).
-/

namespace NginxTools.VhostTrafficStatus

/-! ### Keys -/

/-- `NGX_HTTP_VHOST_TRAFFIC_STATUS_KEY_SEPARATOR`. -/
def separator : UInt8 := 0x1f

/-- `ngx_http_vhost_traffic_status_group_to_string`. -/
def groupToString : Group → List UInt8
  | .no => [0x4e, 0x4f]
  | .ua => [0x55, 0x41]
  | .ug => [0x55, 0x47]
  | .cc => [0x43, 0x43]
  | .fg => [0x46, 0x47]

/-- `ngx_http_vhost_traffic_status_node_generate_key`. -/
def generateKey (dst : List UInt8) (type : Group) : List UInt8 :=
  groupToString type ++ separator :: dst

/-- The loop of `position_key`, over the bytes from `p` on: what `s`, `c` and `len` are in the
end. -/
def positionFrom (pos : ℕ) : List UInt8 → ℕ → ℕ → ℕ → ℕ → ℕ × ℕ × ℕ
  | [], _, s, c, len => (s, c, len)
  | b :: rest, p, s, c, len =>
    if b = separator then
      if pos = c then (s, c, len)
      else positionFrom pos rest (p + 1) (p + 1) (c + 1) (p + 1 - (p + 1))
    else positionFrom pos rest (p + 1) s c (p + 1 - s)

/-- What follows the loop. -/
def partAt (buf : List UInt8) (pos : ℕ) : ℕ × ℕ × ℕ → Option (List UInt8)
  | (s, c, len) => if pos > c ∨ len = 0 then none else some ((buf.drop s).take len)

/-- `ngx_http_vhost_traffic_status_node_position_key`. -/
def positionKey (buf : List UInt8) (pos : ℕ) : Option (List UInt8) :=
  partAt buf pos (positionFrom pos buf 0 0 0 0)

/-! ### The handler's keys -/

/-- A filter: its pattern, and the values of its key and of its name, where they can be had. -/
structure Filter where
  pattern : List UInt8
  key : Option (List UInt8)
  name : Option (List UInt8)

/-- `ngx_http_upstream_srv_conf_t`: the words that are read. -/
structure UpstreamConf where
  host : List UInt8
  port : UInt16

/-- `u->resolved`. -/
structure Resolved where
  host : List UInt8
  port : UInt16
  noPort : Bool

/-- The upstream of a request that was passed on. -/
structure Upstream where
  /-- `u->conf->upstream`. -/
  conf : UpstreamConf
  resolved : Option Resolved
  /-- `state[0].peer`. -/
  peer : Option (List UInt8)

/-- What the handler reads of the request and of its configuration. -/
structure Handled where
  /-- `ctx->enable && vtscf->enable && !vtscf->bypass_stats`, and there is a zone. -/
  enabled : Bool
  filter : Bool
  filterHost : Bool
  /-- `r->headers_in.server`. -/
  host : List UInt8
  serverName : List UInt8
  /-- The upstreams of the configuration. -/
  upstreams : List UpstreamConf
  /-- The upstream, if there are states of one. -/
  upstream : Option Upstream
  /-- `ctx->filter_keys`. -/
  mainFilters : List Filter
  /-- `vtscf->filter_keys`. -/
  filters : List Filter
  /-- The name of the cache's zone, if the request has a cache and a cache status. -/
  cache : Option (List UInt8)

/-- A byte in lower case. -/
def toLower (c : UInt8) : UInt8 := if 0x41 ≤ c ∧ c ≤ 0x5a then c ||| 0x20 else c

/-- `ngx_strncasecmp(...) == 0`. -/
def strncaseeq : ℕ → List UInt8 → List UInt8 → Bool
  | n + 1, c1 :: s1, c2 :: s2 =>
    if toLower c1 = toLower c2 then
      if toLower c1 ≠ 0 then strncaseeq n s1 s2 else true
    else false
  | _, _, _ => true

/-- The key of a server: by the host header or by the server's name. -/
def serverKey (h : Handled) : List UInt8 :=
  if h.filter ∧ h.filterHost ∧ h.host ≠ [] then generateKey h.host .no
  else generateKey (if h.serverName = [] then [0x5f] else h.serverName) .no

/-- The configuration of a request's upstream. -/
def upstreamConf (h : Handled) (u : Upstream) : UpstreamConf :=
  match u.resolved with
  | none => u.conf
  | some r =>
    let found := h.upstreams.find? fun uscf =>
      uscf.host.length = r.host.length ∧ (uscf.port = 0 ∧ r.noPort ∨ uscf.port = r.port) ∧
        strncaseeq r.host.length uscf.host r.host
    found.getD ⟨r.host, r.port⟩

/-- `ngx_http_vhost_traffic_status_shm_add_upstream`: the key. -/
def upstreamKeys (h : Handled) : List (List UInt8 × Group) :=
  match h.upstream with
  | none => []
  | some u =>
    let uscf := upstreamConf h u
    match u.peer with
    | none => []
    | some peer =>
      if uscf.port ≠ 0 then [(generateKey peer .ua, .ua)]
      else [(generateKey (uscf.host ++ separator :: peer) .ug, .ug)]

/-- The key of a filter's value. -/
def filterKey (key name : List UInt8) : List UInt8 × Group :=
  if name = [] then (generateKey key .no, .no)
  else (generateKey (name ++ separator :: key) .fg, .fg)

/-- `ngx_http_vhost_traffic_status_shm_add_filter_node`: the keys, up to a variable that fails. -/
def filterKeys : List Filter → List (List UInt8 × Group)
  | [] => []
  | f :: fs =>
    if f.pattern = [] then filterKeys fs
    else
      match f.key, f.name with
      | some key, some name =>
        if key = [] then filterKeys fs else filterKey key name :: filterKeys fs
      | _, _ => []

/-- `ngx_http_vhost_traffic_status_handler`: the keys under which a request is accounted. -/
def handlerKeys (h : Handled) : List (List UInt8 × Group) :=
  if h.enabled then
    (serverKey h, .no) :: upstreamKeys h ++
      (if h.filter then filterKeys h.mainFilters ++ filterKeys h.filters else []) ++
      (h.cache.map fun name => (generateKey name .cc, Group.cc)).toList
  else []

/-! ### Taking a key apart -/

/-- What the loop leaves in the end of a part at the position. -/
theorem partAt_here {pre rest : List UInt8} {s pos : ℕ} (hs : s ≤ pre.length) :
    partAt (pre ++ rest) pos (s, pos, pre.length - s) =
      (some (pre.drop s)).filter (· ≠ []) := by
  have htake : ((pre ++ rest).drop s).take (pre.length - s) = pre.drop s := by
    rw [List.drop_append_of_le_length hs, List.take_append_of_le_length (by simp),
      List.take_of_length_le (by simp)]
  have hempty : pre.length - s = 0 ↔ pre.drop s = [] := by
    rw [List.drop_eq_nil_iff]
    omega
  simp only [partAt, htake, gt_iff_lt, Nat.lt_irrefl, false_or, hempty]
  by_cases hnil : pre.drop s = [] <;> simp [Option.filter, hnil]

/-- The loop, after the bytes before `p`: the part from `s` on is the one that it is in. -/
theorem positionFrom_spec (pos : ℕ) (rest pre : List UInt8) (s c : ℕ) (hs : s ≤ pre.length)
    (hc : c ≤ pos) :
    partAt (pre ++ rest) pos (positionFrom pos rest pre.length s c (pre.length - s)) =
      (((rest.splitOn separator).modifyHead (pre.drop s ++ ·))[pos - c]?).filter (· ≠ []) := by
  induction rest generalizing pre s c with
  | nil =>
    rw [positionFrom, List.splitOn_nil, List.modifyHead_cons]
    rcases Nat.eq_or_lt_of_le hc with rfl | hlt
    · rw [partAt_here hs, Nat.sub_self, List.getElem?_cons_zero, List.append_nil]
    · obtain ⟨k, hk⟩ : ∃ k, pos - c = k + 1 := ⟨pos - c - 1, by omega⟩
      rw [hk, List.getElem?_cons_succ, List.getElem?_nil]
      simp [partAt, hlt]
  | cons b rest ih =>
    have happend : pre ++ b :: rest = pre ++ [b] ++ rest := by simp
    have hlen : (pre ++ [b]).length = pre.length + 1 := by simp
    rw [positionFrom, List.splitOn_cons_eq_if_modifyHead]
    by_cases hb : b = separator
    · subst hb
      rw [if_pos rfl, beq_self_eq_true, if_pos rfl, List.modifyHead_cons, List.append_nil]
      rcases Nat.eq_or_lt_of_le hc with rfl | hlt
      · rw [if_pos rfl, partAt_here hs, Nat.sub_self, List.getElem?_cons_zero]
      · have hrec := ih (pre ++ [separator]) (pre.length + 1) (c + 1) (by simp) hlt
        rw [hlen, ← happend] at hrec
        rw [if_neg (by omega), hrec, show pos - c = pos - (c + 1) + 1 by omega,
          List.getElem?_cons_succ, List.drop_of_length_le (by simp)]
        cases rest.splitOn separator <;> rfl
    · have hrec := ih (pre ++ [b]) s c (by rw [hlen]; omega) hc
      rw [hlen, ← happend] at hrec
      have hbeq : ¬ (b == separator) = true := by simpa using hb
      rw [if_neg hb, if_neg hbeq, hrec, List.drop_append_of_le_length hs]
      cases rest.splitOn separator <;> simp

/-- **The loop splits the buffer at the separators.** A part that is empty is an error. -/
theorem positionKey_eq (buf : List UInt8) (pos : ℕ) :
    positionKey buf pos = ((buf.splitOn separator)[pos]?).filter (· ≠ []) := by
  have h := positionFrom_spec pos buf [] 0 0 (Nat.le_refl _) (Nat.zero_le _)
  rw [List.nil_append] at h
  rw [positionKey]
  refine h.trans ?_
  cases buf.splitOn separator <;> rfl

theorem separator_notMem (type : Group) : separator ∉ groupToString type := by
  cases type <;> decide

theorem groupToString_ne_nil (type : Group) : groupToString type ≠ [] := by
  cases type <;> decide

theorem groupToString_inj {t t' : Group} (h : groupToString t = groupToString t') : t = t' := by
  cases t <;> cases t' <;> first | rfl | exact absurd h (by decide)

theorem splitOn_generateKey (dst : List UInt8) (type : Group) :
    (generateKey dst type).splitOn separator = groupToString type :: dst.splitOn separator :=
  List.splitOn_append_cons_self_of_not_mem (separator_notMem type) dst

/-- No two groups have a key in common. -/
theorem generateKey_inj {dst dst' : List UInt8} {type type' : Group} :
    generateKey dst type = generateKey dst' type' ↔ dst = dst' ∧ type = type' := by
  constructor
  · intro h
    have hsplit := congrArg (List.splitOn separator) h
    rw [splitOn_generateKey, splitOn_generateKey, List.cons.injEq] at hsplit
    obtain rfl := groupToString_inj hsplit.1
    exact ⟨by simpa [generateKey] using h, rfl⟩
  · rintro ⟨rfl, rfl⟩
    rfl

/-- **What is put together is taken apart.** For every part and every group, the group is at the
first position of the key, and the parts of what was put after it are at the others; the keys of two
filters are the same only if their names and values are. -/
theorem key_roundTrip (dst : List UInt8) (type : Group) :
    positionKey (generateKey dst type) 0 = some (groupToString type) ∧
      (∀ pos, positionKey (generateKey dst type) (pos + 1) = positionKey dst pos) ∧
      (∀ dst' type', generateKey dst type = generateKey dst' type' → dst = dst' ∧ type = type') ∧
      ∀ name key, separator ∉ name → name ≠ [] → dst = name ++ separator :: key →
        positionKey (generateKey dst type) 1 = some name ∧
          ∀ pos, positionKey (generateKey dst type) (pos + 2) = positionKey key pos := by
  have hpos : ∀ pos, positionKey (generateKey dst type) (pos + 1) = positionKey dst pos := by
    intro pos
    rw [positionKey_eq, positionKey_eq, splitOn_generateKey, List.getElem?_cons_succ]
  refine ⟨?_, hpos, fun dst' type' h => generateKey_inj.mp h, ?_⟩
  · rw [positionKey_eq, splitOn_generateKey, List.getElem?_cons_zero]
    simp [groupToString_ne_nil]
  · rintro name key hsep hname rfl
    have hsplit : (name ++ separator :: key).splitOn separator = name :: key.splitOn separator :=
      List.splitOn_append_cons_self_of_not_mem hsep key
    refine ⟨?_, fun pos => ?_⟩
    · rw [hpos, positionKey_eq, hsplit, List.getElem?_cons_zero]
      simp [hname]
    · rw [hpos, positionKey_eq, positionKey_eq, hsplit, List.getElem?_cons_succ]

/-- The key of a filter `host` whose value is `a`, taken apart. -/
theorem key_roundTrip_hostFilter :
    positionKey (generateKey [0x68, 0x6f, 0x73, 0x74, 0x1f, 0x61] .fg) 1 =
        some [0x68, 0x6f, 0x73, 0x74] ∧
      positionKey (generateKey [0x68, 0x6f, 0x73, 0x74, 0x1f, 0x61] .fg) 2 = some [0x61] := by
  obtain ⟨-, -, -, hfilter⟩ := key_roundTrip [0x68, 0x6f, 0x73, 0x74, 0x1f, 0x61] .fg
  obtain ⟨hname, hvalue⟩ := hfilter [0x68, 0x6f, 0x73, 0x74] [0x61] (by decide) (by decide) rfl
  exact ⟨hname, (hvalue 0).trans (by decide)⟩

/-! ### The keys of a request -/

theorem filterKeys_spec {fs : List Filter} {k : List UInt8 × Group} (h : k ∈ filterKeys fs) :
    ∃ dst, k.1 = generateKey dst k.2 := by
  induction fs with
  | nil => simp [filterKeys] at h
  | cons f fs ih =>
    rw [filterKeys] at h
    split_ifs at h with hpattern
    · exact ih h
    · split at h
      case h_1 key name hkey hname =>
        split_ifs at h with hempty
        · exact ih h
        · rcases List.mem_cons.mp h with rfl | h
          · unfold filterKey
            split_ifs
            · exact ⟨key, rfl⟩
            · exact ⟨name ++ separator :: key, rfl⟩
          · exact ih h
      case h_2 => simp at h

theorem upstreamKeys_spec {h : Handled} {k : List UInt8 × Group} (hk : k ∈ upstreamKeys h) :
    ∃ dst, k.1 = generateKey dst k.2 := by
  unfold upstreamKeys at hk
  cases hupstream : h.upstream with
  | none => simp [hupstream] at hk
  | some u =>
    cases hpeer : u.peer with
    | none => simp [hupstream, hpeer] at hk
    | some peer =>
      simp only [hupstream, hpeer] at hk
      split_ifs at hk
      · obtain rfl := List.mem_singleton.mp hk
        exact ⟨peer, rfl⟩
      · obtain rfl := List.mem_singleton.mp hk
        exact ⟨_, rfl⟩

/-- Every key under which a request is accounted is put together for its group. -/
theorem handlerKeys_spec {h : Handled} {k : List UInt8 × Group} (hk : k ∈ handlerKeys h) :
    ∃ dst, k.1 = generateKey dst k.2 := by
  unfold handlerKeys at hk
  split_ifs at hk with henabled hfilter
  · simp only [List.mem_append, List.mem_cons, Option.mem_toList, Option.map_eq_some_iff] at hk
    rcases hk with ((rfl | hk) | hk) | ⟨name, -, rfl⟩
    · unfold serverKey
      split_ifs <;> exact ⟨_, rfl⟩
    · exact upstreamKeys_spec hk
    · exact hk.elim filterKeys_spec filterKeys_spec
    · exact ⟨name, rfl⟩
  · simp only [List.append_nil, List.mem_append, List.mem_cons, Option.mem_toList,
      Option.map_eq_some_iff] at hk
    rcases hk with (rfl | hk) | ⟨name, -, rfl⟩
    · unfold serverKey
      split_ifs <;> exact ⟨_, rfl⟩
    · exact upstreamKeys_spec hk
    · exact ⟨name, rfl⟩
  · simp at hk

end NginxTools.VhostTrafficStatus

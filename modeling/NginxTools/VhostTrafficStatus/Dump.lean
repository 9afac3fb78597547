import NginxTools.VhostTrafficStatus.Eviction

/-!
# The dump

The first worker writes the nodes into a file, every now and then and when it ends, and reads them
when it starts. A node is written as the bytes of its struct, its key and a pad, in the order of the
walk over the tree:

    (void) ngx_write_fd(file->fd, vtsn, sizeof(ngx_http_vhost_traffic_status_node_t));
    (void) ngx_write_fd(file->fd, vtsn->data, vtsn->len);
    (void) ngx_write_fd(file->fd, NGX_HTTP_VHOST_TRAFFIC_STATUS_DUMP_DATA_PAD,
                        sizeof(NGX_HTTP_VHOST_TRAFFIC_STATUS_DUMP_DATA_PAD));

and read in the same parts, up to the first one that is not there or not what it should be.

## The model

A file is its bytes. What the bytes of a struct are is a `Layout`; that a struct is read as it was
written is assumed where it is needed (`Layout.Keeps`). `dumpExecute` is what is written where no
write fails, and no worker accounts a request in between (the zone's mutex is not taken for it).
What the allocator gives depends on the zone.

## What is proved

**A dump that is read gives the same ledger**, and of a file that was cut off anywhere, as by a
worker that was killed, exactly the nodes are restored that are wholly in it (`dump_roundTrip`).
A zone that has nodes already keeps them. Keys have to fit the buffer: a node whose key does not
is to be passed over, but the size of its struct is not counted (`dumpRestoreFrom_long`).
-/

namespace NginxTools.VhostTrafficStatus

open NginxTools.Library
open NginxTools.Core

/-! ### The file -/

/-- The bytes of `ngx_http_vhost_traffic_status_node_t`, with the length of the key in it. -/
structure Layout where
  /-- `sizeof(ngx_http_vhost_traffic_status_node_t)`. -/
  size : ℕ
  size_pos : 0 < size
  write : TrafficNode → UInt16 → List UInt8
  read : List UInt8 → TrafficNode × UInt16
  length_write : ∀ v len, (write v len).length = size

/-- A node is read as it was written. -/
def Layout.Keeps (L : Layout) (v : TrafficNode) : Prop :=
  ∀ len, L.read (L.write v len) = (v, len)

/-- `NGX_HTTP_VHOST_TRAFFIC_STATUS_DUMP_DATA_PAD`. -/
def dumpDataPad : List UInt8 := [0x53, 0x54, 0x56]

/-- `NGX_HTTP_VHOST_TRAFFIC_STATUS_DUMP_HEADER_NAME_SIZE`. -/
def dumpHeaderNameSize : ℕ := 128

/-- `NGX_HTTP_VHOST_TRAFFIC_STATUS_DUMP_DATA_BUF_SIZE`. -/
def dumpDataBufSize : ℕ := 1024

/-- The bytes of a word. -/
def wordBytes (x : UInt64) : List UInt8 :=
  (List.range 8).map fun i => (x >>> (8 * UInt64.ofNat i)).toUInt8

/-- The bytes of `ctx->shm_name` that are written and compared. -/
def shmName (name : List UInt8) : List UInt8 :=
  if name.length ≥ dumpHeaderNameSize then name.take (dumpHeaderNameSize - 1) else name

/-- `ngx_http_vhost_traffic_status_dump_header_write`. -/
def dumpHeaderWrite (name : List UInt8) (now version : UInt64) : List UInt8 :=
  shmName name ++ List.replicate (dumpHeaderNameSize - (shmName name).length) 0 ++
    wordBytes now ++ wordBytes version

/-- A node in the file. -/
def recordBytes (L : Layout) (r : TrafficNode × List UInt8) : List UInt8 :=
  L.write r.1 (UInt16.ofNat r.2.length) ++ r.2 ++ dumpDataPad

variable {ω ℓ : Type}

/-- `ngx_http_vhost_traffic_status_dump_node_write`. -/
def dumpNodeWrite (L : Layout) (s : Shm ω ℓ) : List UInt8 :=
  s.rbtree.walk (fun file x =>
    match s.mem x.addr with
    | some c => file ++ recordBytes L (c.toTrafficNode, x.data)
    | none => file) []

/-- `ngx_http_vhost_traffic_status_dump_execute`. -/
def dumpExecute (L : Layout) (name : List UInt8) (now version : UInt64) (s : Shm ω ℓ) :
    List UInt8 :=
  dumpHeaderWrite name now version ++ dumpNodeWrite L s

/-- `ngx_read_file`. -/
def readFile (file : List UInt8) (size offset : ℕ) : List UInt8 := (file.drop offset).take size

/-- `ngx_http_vhost_traffic_status_dump_restore_add_node`: whether it returns `NGX_OK`. -/
def dumpRestoreOk (e : Setup) (key : List UInt8) (alloc : Alloc) (s : Shm ω ℓ) : Bool :=
  key ≠ [] ∧ ((lookupNode (e.crc32 key) key s.rbtree).isSome ∨ alloc.raw.isSome)

/-- The loop of `ngx_http_vhost_traffic_status_dump_restore`. -/
def dumpRestoreFrom (L : Layout) (e : Setup) (alloc : Shm ω ℓ → Alloc) (file : List UInt8) :
    ℕ → ℕ → Shm ω ℓ → Option (Shm ω ℓ)
  | 0, _, s => some s
  | turns + 1, offset, s =>
    let node := readFile file L.size offset
    if node.length ≠ L.size then some s
    else
      let vtsn := L.read node
      let len := vtsn.2.toNat
      if len > dumpDataBufSize then
        -- `offset` is not yet behind the struct
        dumpRestoreFrom L e alloc file turns (offset + len + dumpDataPad.length) s
      else
        let key := readFile file len (offset + L.size)
        if key.length ≠ len then some s
        else
          let pad := readFile file dumpDataPad.length (offset + L.size + len)
          if pad.length ≠ dumpDataPad.length then some s
          else if pad ≠ dumpDataPad then some s
          else do
            let s' ← dumpRestoreAddNode e vtsn.1 key (alloc s) s
            if dumpRestoreOk e key (alloc s) s then
              dumpRestoreFrom L e alloc file turns
                (offset + L.size + len + dumpDataPad.length) s'
            else some s'

/-- `sizeof(ngx_http_vhost_traffic_status_dump_header_t)`. -/
def dumpHeaderSize : ℕ := dumpHeaderNameSize + 8 + 8

/-- `ngx_http_vhost_traffic_status_dump_restore`, with as many turns as there can be. -/
def dumpRestore (L : Layout) (e : Setup) (name : List UInt8) (alloc : Shm ω ℓ → Alloc)
    (file : List UInt8) (s : Shm ω ℓ) : Option (Shm ω ℓ) :=
  let header := readFile file dumpHeaderSize 0
  if header.length ≠ dumpHeaderSize then some s
  else if strnceq (header.take dumpHeaderNameSize) (shmName name) = false then some s
  else dumpRestoreFrom L e alloc file (file.length + 1) dumpHeaderSize s

/-! ### What is in a file -/

variable {L : Layout} {e : Setup} {s s' : Shm ω ℓ} {alloc : Shm ω ℓ → Alloc}
  {r : TrafficNode × List UInt8} {rs : List (TrafficNode × List UInt8)}

/-- The nodes of a zone in the order of the walk, with their keys. -/
def records (s : Shm ω ℓ) : List (TrafficNode × List UInt8) :=
  s.rbtree.preorder.filterMap fun x => (s.mem x.addr).map fun c => (c.toTrafficNode, x.data)

/-- The nodes that are wholly in the first bytes of a file. -/
def whole (L : Layout) : ℕ → List (TrafficNode × List UInt8) → List (TrafficNode × List UInt8)
  | _, [] => []
  | n, r :: rs =>
    if (recordBytes L r).length ≤ n then r :: whole L (n - (recordBytes L r).length) rs else []

/-- A node that can be restored. -/
def Restorable (L : Layout) (r : TrafficNode × List UInt8) : Prop :=
  L.Keeps r.1 ∧ r.2 ≠ [] ∧ r.2.length ≤ dumpDataBufSize

theorem dumpNodeWrite_eq (L : Layout) (s : Shm ω ℓ) :
    dumpNodeWrite L s = (records s).flatMap (recordBytes L) := by
  have hfold : ∀ (l : List KeyedNode) (file : List UInt8),
      l.foldl (fun file x =>
        match s.mem x.addr with
        | some c => file ++ recordBytes L (c.toTrafficNode, x.data)
        | none => file) file =
      file ++ (l.filterMap fun x =>
        (s.mem x.addr).map fun c => (c.toTrafficNode, x.data)).flatMap (recordBytes L) := by
    intro l
    induction l with
    | nil => exact fun file => (List.append_nil _).symm
    | cons x l ih =>
      intro file
      rw [List.foldl_cons, ih]
      cases hx : s.mem x.addr with
      | none => simp [hx]
      | some c => simp [hx]
  rw [dumpNodeWrite, RbTree.walk_eq, hfold]
  rfl

theorem length_recordBytes (L : Layout) (r : TrafficNode × List UInt8) :
    (recordBytes L r).length = L.size + r.2.length + dumpDataPad.length := by
  rw [recordBytes, List.length_append, List.length_append, L.length_write]

theorem whole_isPrefix (L : Layout) (n : ℕ) (rs : List (TrafficNode × List UInt8)) :
    whole L n rs <+: rs := by
  induction rs generalizing n with
  | nil => exact List.prefix_refl _
  | cons r rs ih =>
    rw [whole]
    split_ifs
    · exact List.cons_prefix_cons.mpr ⟨rfl, ih _⟩
    · exact List.nil_prefix

/-- A file that was not cut off has all nodes. -/
theorem whole_all {n : ℕ} (h : (rs.flatMap (recordBytes L)).length ≤ n) : whole L n rs = rs := by
  induction rs generalizing n with
  | nil => rfl
  | cons r rs ih =>
    rw [List.flatMap_cons, List.length_append] at h
    rw [whole, if_pos (by omega), ih (by omega)]

/-! ### What is read -/

section Reading

variable {file rest a b more key : List UInt8} {offset n turns : ℕ} {v : TrafficNode}

/-- A part that the file has is read. -/
theorem readFile_part (hfile : file.drop offset = (a ++ (b ++ more)).take n)
    (hn : a.length + b.length ≤ n) : readFile file b.length (offset + a.length) = b := by
  have hmin : min b.length (n - a.length) = b.length := by omega
  rw [readFile, ← List.drop_drop, hfile, List.drop_take, List.drop_left, List.take_take, hmin,
    List.take_left]

/-- Less is read than there should be. -/
theorem readFile_short (hfile : file.drop offset = rest) {size k : ℕ} (hsize : 0 < size)
    (hrest : rest.length < k + size) : (readFile file size (offset + k)).length ≠ size := by
  rw [readFile, ← List.drop_drop, hfile, List.length_take, List.length_drop]
  omega

theorem toNat_length (hr : Restorable L r) :
    (UInt16.ofNat r.2.length).toNat = r.2.length := by
  have hle : r.2.length ≤ 1024 := hr.2.2
  rw [UInt16.toNat_ofNat_of_lt']
  show r.2.length < 65536
  omega

theorem recordBytes_append (L : Layout) (r : TrafficNode × List UInt8) (more : List UInt8) :
    recordBytes L r ++ more =
      L.write r.1 (UInt16.ofNat r.2.length) ++ (r.2 ++ (dumpDataPad ++ more)) := by
  simp only [recordBytes, List.append_assoc]

theorem readFile_node (hfile : file.drop offset = (recordBytes L r ++ more).take n)
    (hn : L.size ≤ n) :
    readFile file L.size offset = L.write r.1 (UInt16.ofNat r.2.length) := by
  rw [recordBytes_append, ← List.nil_append (L.write _ _), List.append_assoc] at hfile
  have hpart := readFile_part hfile (by rw [L.length_write]; simpa using hn)
  rwa [L.length_write] at hpart

theorem readFile_key (hfile : file.drop offset = (recordBytes L r ++ more).take n)
    (hn : L.size + r.2.length ≤ n) : readFile file r.2.length (offset + L.size) = r.2 := by
  rw [recordBytes_append] at hfile
  have hpart := readFile_part hfile (by rwa [L.length_write])
  rwa [L.length_write] at hpart

theorem readFile_pad (hfile : file.drop offset = (recordBytes L r ++ more).take n)
    (hn : (recordBytes L r).length ≤ n) :
    readFile file dumpDataPad.length (offset + L.size + r.2.length) = dumpDataPad := by
  rw [length_recordBytes] at hn
  rw [recordBytes_append, ← List.append_assoc] at hfile
  have hlen : (L.write r.1 (UInt16.ofNat r.2.length) ++ r.2).length = L.size + r.2.length := by
    rw [List.length_append, L.length_write]
  have hpart := readFile_part hfile (by rwa [hlen])
  rwa [hlen, ← Nat.add_assoc] at hpart

/-- A node that is wholly in the file is restored. -/
theorem dumpRestoreFrom_record (hr : Restorable L r)
    (hfile : file.drop offset = (recordBytes L r ++ more).take n)
    (hn : (recordBytes L r).length ≤ n) {a : ℕ} {raw : TrafficNode}
    (halloc : alloc s = .slot a raw) (hs : dumpRestoreAddNode e r.1 r.2 (alloc s) s = some s') :
    dumpRestoreFrom L e alloc file (turns + 1) offset s =
      dumpRestoreFrom L e alloc file turns (offset + (recordBytes L r).length) s' := by
  have hsize := length_recordBytes L r
  have hnode := readFile_node hfile (by omega)
  have hkey := readFile_key hfile (by omega)
  have hpad := readFile_pad hfile hn
  have hok : dumpRestoreOk e r.2 (alloc s) s = true := by
    simp [dumpRestoreOk, hr.2.1, halloc, Alloc.raw]
  have hlong : ¬ r.2.length > dumpDataBufSize := hr.2.2.not_gt
  simp only [dumpRestoreFrom, hnode, L.length_write, hr.1 _, toNat_length hr, hlong, hkey, hpad,
    hs, hok, ne_eq, not_true_eq_false, if_false, if_true, Option.bind_eq_bind, Option.bind_some]
  rw [hsize, ← Nat.add_assoc, ← Nat.add_assoc]

/-- A node that is cut off ends the loop. -/
theorem dumpRestoreFrom_cut (hr : Restorable L r)
    (hfile : file.drop offset = (recordBytes L r ++ more).take n)
    (hn : n < (recordBytes L r).length) :
    dumpRestoreFrom L e alloc file turns offset s = some s := by
  have hsize := length_recordBytes L r
  have hrest : ((recordBytes L r ++ more).take n).length ≤ n := List.length_take_le _ _
  cases turns with
  | zero => rfl
  | succ turns =>
    rw [dumpRestoreFrom]
    by_cases hnode : n < L.size
    · exact if_pos (readFile_short (k := 0) hfile L.size_pos (by omega))
    have hlong : ¬ r.2.length > dumpDataBufSize := hr.2.2.not_gt
    simp only [readFile_node hfile (by omega), L.length_write, hr.1 _, toNat_length hr, hlong,
      ne_eq, not_true_eq_false, if_false]
    by_cases hkey : n < L.size + r.2.length
    · exact if_pos (readFile_short hfile (List.length_pos_iff.mpr hr.2.1) (by omega))
    rw [readFile_key hfile (by omega), if_neg (not_not_intro rfl)]
    refine if_pos ?_
    rw [Nat.add_assoc]
    exact readFile_short hfile (by decide) (by omega)

/-- Behind a key that is too long, the next struct is read too early, by the size of a struct. -/
theorem dumpRestoreFrom_long (hkeeps : L.Keeps r.1) (hlong : dumpDataBufSize < r.2.length)
    (hshort : r.2.length < 2 ^ 16) (hfile : file.drop offset = recordBytes L r ++ more) :
    dumpRestoreFrom L e alloc file (turns + 1) offset s =
      dumpRestoreFrom L e alloc file turns (offset + ((recordBytes L r).length - L.size)) s := by
  have htake : file.drop offset =
      (recordBytes L r ++ more).take (recordBytes L r ++ more).length := by
    rw [hfile, List.take_length]
  have hnode := readFile_node htake (by
    rw [List.length_append, length_recordBytes]
    omega)
  have hlen : (UInt16.ofNat r.2.length).toNat = r.2.length := UInt16.toNat_ofNat_of_lt' hshort
  have hoffset : offset + ((recordBytes L r).length - L.size) =
      offset + r.2.length + dumpDataPad.length := by
    rw [length_recordBytes]
    omega
  rw [hoffset]
  simp only [dumpRestoreFrom, hnode, L.length_write, hkeeps _, hlen, gt_iff_lt, hlong, ne_eq,
    not_true_eq_false, if_false, if_true]

/-- The turns are as many as there can be: with more of them nothing else is read. -/
theorem dumpRestoreFrom_enough (hturns : file.length < offset + turns) :
    dumpRestoreFrom L e alloc file (turns + 1) offset s =
      dumpRestoreFrom L e alloc file turns offset s := by
  induction turns generalizing offset s with
  | zero =>
    rw [dumpRestoreFrom, dumpRestoreFrom]
    have hend : file.drop offset = [] := List.drop_eq_nil_of_le (by omega)
    exact if_pos (readFile_short (k := 0) hend L.size_pos (by simp [L.size_pos]))
  | succ turns ih =>
    have hpad : dumpDataPad.length = 3 := rfl
    rw [dumpRestoreFrom]
    conv_rhs => rw [dumpRestoreFrom]
    have hnext : ∀ k s', dumpRestoreFrom L e alloc file (turns + 1)
        (offset + (k + dumpDataPad.length)) s' =
          dumpRestoreFrom L e alloc file turns (offset + (k + dumpDataPad.length)) s' :=
      fun k s' => ih (by omega)
    simp only [Nat.add_assoc offset, hnext]

end Reading

/-! ### The ledger that is restored -/

/-- What the zone has for a key stays, and for a key without a node one is made. -/
theorem Shm.Wf.exists_restored (h : s.Wf e) (hr : Restorable L r) {a : ℕ} {raw : TrafficNode}
    (halloc : alloc s = .slot a raw) (hfree : s.mem a = none) :
    ∃ s', dumpRestoreAddNode e r.1 r.2 (alloc s) s = some s' ∧ s'.Wf e ∧
      contents e s' =
        Function.update (contents e s) r.2 (some ((contents e s r.2).getD r.1)) := by
  have hshort : r.2.length < 2 ^ 16 := lt_of_le_of_lt hr.2.2 (by decide)
  have hfits : Act.Fits e s (.restore r.1 r.2 (alloc s)) := halloc ▸ hfree
  obtain ⟨s', hs⟩ := h.exists_dumpRestoreAddNode hshort hfits
  refine ⟨s', hs, ?_, ?_⟩
  · rcases dumpRestoreAddNode_cases h hshort hs with rfl | ⟨_, _, _, -, -, -, hwf⟩
    · exact h
    · exact hwf
  · rw [h.contents_restored hshort hs, entries, if_neg hr.2.1, halloc]
    rfl

/-- One node that is restored, and then some others. -/
theorem restored_cons {m : Ledger} {others : List (TrafficNode × List UInt8)}
    (hnew : r.2 ∉ others.map Prod.snd) (key : List UInt8) (v : TrafficNode) :
    (Function.update m r.2 (some ((m r.2).getD r.1)) key = some v ∨
        Function.update m r.2 (some ((m r.2).getD r.1)) key = none ∧ (v, key) ∈ others) ↔
      m key = some v ∨ m key = none ∧ (v, key) ∈ r :: others := by
  rw [List.mem_cons]
  by_cases hkey : key = r.2
  · have hnot : (v, key) ∉ others := fun hmem => hnew (List.mem_map.mpr ⟨_, hmem, hkey⟩)
    subst hkey
    cases m r.2 with
    | none => simp [hnot, Prod.ext_iff, eq_comm]
    | some v₀ => simp
  · have hne : (v, key) ≠ r := fun heq => hkey (congrArg Prod.snd heq)
    simp [Function.update_of_ne hkey, hne]

/-- What the loop makes of a file that has the first bytes of some nodes. -/
theorem dumpRestoreFrom_spec {file : List UInt8} {offset n turns : ℕ}
    (halloc : ∀ s, s.Wf e → ∃ a raw, alloc s = .slot a raw ∧ s.mem a = none)
    (hrs : ∀ r ∈ rs, Restorable L r) (hnodup : (rs.map Prod.snd).Nodup)
    (hfile : file.drop offset = (rs.flatMap (recordBytes L)).take n)
    (hturns : file.length < offset + turns) (h : s.Wf e) :
    ∃ s', dumpRestoreFrom L e alloc file turns offset s = some s' ∧ s'.Wf e ∧
      ∀ key v, contents e s' key = some v ↔ contents e s key = some v ∨
        contents e s key = none ∧ (v, key) ∈ whole L n rs := by
  induction rs generalizing n turns offset s with
  | nil =>
    refine ⟨s, ?_, h, fun key v => by simp [whole]⟩
    cases turns with
    | zero => rfl
    | succ turns =>
      rw [dumpRestoreFrom]
      exact if_pos (readFile_short (k := 0) hfile L.size_pos (by simpa using L.size_pos))
  | cons r rs ih =>
    have hr := hrs r List.mem_cons_self
    have hrs' : ∀ r ∈ rs, Restorable L r := fun r' h => hrs r' (List.mem_cons_of_mem _ h)
    rw [List.map_cons, List.nodup_cons] at hnodup
    rw [List.flatMap_cons] at hfile
    rw [whole]
    split_ifs with hn
    · have hdrop : file.drop (offset + (recordBytes L r).length) =
          (rs.flatMap (recordBytes L)).take (n - (recordBytes L r).length) := by
        rw [← List.drop_drop, hfile, List.drop_take, List.drop_left]
      have hlen := congrArg List.length hfile
      rw [List.length_drop, List.length_take, List.length_append] at hlen
      have hsize := length_recordBytes L r
      have hpos := L.size_pos
      cases turns with
      | zero => omega
      | succ turns =>
        obtain ⟨a, raw, ha, hfree⟩ := halloc s h
        obtain ⟨s₁, hs₁, hwf₁, hcontents⟩ := h.exists_restored hr ha hfree
        have hturns' : file.length < offset + (recordBytes L r).length + turns := by omega
        obtain ⟨s', hs', hwf', hspec⟩ := ih hrs' hnodup.2 hdrop hturns' hwf₁
        refine ⟨s', (dumpRestoreFrom_record hr hfile hn ha hs₁).trans hs', hwf', fun key v => ?_⟩
        rw [hspec, hcontents]
        refine restored_cons (fun hmem => hnodup.1 ?_) key v
        exact List.map_subset _ (whole_isPrefix _ _ _).subset hmem
    · exact ⟨s, dumpRestoreFrom_cut hr hfile (by omega), h, fun key v => by simp⟩

/-- The nodes that are written are those of the ledger. -/
theorem Shm.Wf.mem_records (h : s.Wf e) : r ∈ records s ↔ contents e s r.2 = some r.1 := by
  rw [records, List.mem_filterMap, h.contents_eq_some_iff]
  constructor
  · rintro ⟨x, hx, hr⟩
    obtain ⟨c, hc, rfl⟩ := Option.map_eq_some_iff.mp hr
    exact ⟨x, (s.rbtree.preorder_perm.mem_iff).mp hx, rfl, c, hc, rfl⟩
  · rintro ⟨x, hx, hdata, c, hc, hv⟩
    refine ⟨x, (s.rbtree.preorder_perm.mem_iff).mpr hx, ?_⟩
    rw [hc, Option.map_some, hdata, hv]

theorem Shm.Wf.records_nodup (h : s.Wf e) : ((records s).map Prod.snd).Nodup := by
  have hnodup : s.rbtree.preorder.Nodup := (s.rbtree.preorder_perm.nodup_iff).mpr h.toList_nodup
  rw [records, List.map_filterMap, List.Nodup, List.pairwise_filterMap]
  refine hnodup.imp_of_mem fun {x y} hx hy hne => ?_
  intro key hkey key' hkey' heq
  obtain ⟨r, hr, rfl⟩ := Option.map_eq_some_iff.mp hkey
  obtain ⟨r', hr', rfl⟩ := Option.map_eq_some_iff.mp hkey'
  obtain ⟨c, -, rfl⟩ := Option.map_eq_some_iff.mp hr
  obtain ⟨c', -, rfl⟩ := Option.map_eq_some_iff.mp hr'
  have hmem : ∀ z ∈ s.rbtree.preorder, z ∈ s.rbtree.toList := fun z =>
    s.rbtree.preorder_perm.mem_iff.mp
  exact hne (h.eq_of_data (hmem x hx) (hmem y hy) heq)

theorem strnceq_append (a b : List UInt8) : strnceq (a ++ b) a = true := by
  induction a with
  | nil => rw [strnceq]
  | cons c a ih =>
    rw [List.cons_append, strnceq, if_pos rfl, ih, ite_self]

theorem length_shmName_le (name : List UInt8) : (shmName name).length ≤ dumpHeaderNameSize := by
  rw [shmName]
  split_ifs with h
  · rw [List.length_take]
    exact (Nat.min_le_left _ _).trans (by decide)
  · omega

theorem length_dumpHeaderWrite (name : List UInt8) (now version : UInt64) :
    (dumpHeaderWrite name now version).length = dumpHeaderSize := by
  have hname := length_shmName_le name
  simp only [dumpHeaderWrite, wordBytes, dumpHeaderSize, List.length_append, List.length_replicate,
    List.length_map, List.length_range]
  omega

/-- The name in a header is that of the zone. -/
theorem strnceq_dumpHeaderWrite (name : List UInt8) (now version : UInt64) :
    strnceq ((dumpHeaderWrite name now version).take dumpHeaderNameSize) (shmName name) = true := by
  have hname := length_shmName_le name
  have htake : (dumpHeaderWrite name now version).take dumpHeaderNameSize =
      shmName name ++ List.replicate (dumpHeaderNameSize - (shmName name).length) 0 := by
    rw [dumpHeaderWrite, List.append_assoc _ (wordBytes now)]
    refine List.take_left' ?_
    rw [List.length_append, List.length_replicate]
    omega
  rw [htake]
  exact strnceq_append _ _

theorem whole_nil_of_zero (L : Layout) (rs : List (TrafficNode × List UInt8)) :
    whole L 0 rs = [] := by
  cases rs with
  | nil => rfl
  | cons r rs =>
    have hsize := length_recordBytes L r
    have hpos := L.size_pos
    rw [whole, if_neg (by omega)]

/-- The header that is read is the one that was written. -/
theorem readFile_header {name : List UInt8} {now version : UInt64} {n : ℕ}
    (hn : dumpHeaderSize ≤ n) :
    readFile ((dumpExecute L name now version s).take n) dumpHeaderSize 0 =
      dumpHeaderWrite name now version := by
  have hlen := length_dumpHeaderWrite name now version
  have hfile : ((dumpExecute L name now version s).take n).drop 0 =
      ([] ++ (dumpHeaderWrite name now version ++ dumpNodeWrite L s)).take n := rfl
  have hpart := readFile_part hfile (by rw [hlen]; simpa using hn)
  rwa [hlen] at hpart

/-- **A dump that is read gives the same ledger**, whatever the zone had already, and one that was
cut off gives the nodes that are wholly in it. -/
theorem dump_roundTrip {s₀ : Shm ω ℓ}
    (halloc : ∀ s, s.Wf e → ∃ a raw, alloc s = .slot a raw ∧ s.mem a = none)
    (h : s.Wf e) (hfits : ∀ key v, contents e s key = some v → Restorable L (v, key))
    (h₀ : s₀.Wf e) (name : List UInt8) (now version : UInt64) (n : ℕ) :
    ∃ s₁, dumpRestore L e name alloc ((dumpExecute L name now version s).take n) s₀ = some s₁ ∧
      s₁.Wf e ∧
      (∀ key v, contents e s₁ key = some v ↔ contents e s₀ key = some v ∨
        contents e s₀ key = none ∧ (v, key) ∈ whole L (n - dumpHeaderSize) (records s)) ∧
      ((dumpExecute L name now version s).length ≤ n →
        ∀ key, contents e s₁ key = (contents e s₀ key).or (contents e s key)) := by
  obtain ⟨s₁, hs₁, hwf, hspec⟩ : ∃ s₁,
      dumpRestore L e name alloc ((dumpExecute L name now version s).take n) s₀ = some s₁ ∧
      s₁.Wf e ∧ ∀ key v, contents e s₁ key = some v ↔ contents e s₀ key = some v ∨
        contents e s₀ key = none ∧ (v, key) ∈ whole L (n - dumpHeaderSize) (records s) := by
    have hlen := length_dumpHeaderWrite name now version
    simp only [dumpRestore]
    by_cases hn : n < dumpHeaderSize
    · have hfile : ((dumpExecute L name now version s).take n).length ≤ n :=
        List.length_take_le _ _
      have hshort : (readFile ((dumpExecute L name now version s).take n) dumpHeaderSize
          (0 + 0)).length ≠ dumpHeaderSize := readFile_short rfl (by decide) (by
        rw [List.drop_zero]
        omega)
      refine ⟨s₀, if_pos hshort, h₀, fun key v => ?_⟩
      rw [Nat.sub_eq_zero_of_le hn.le, whole_nil_of_zero]
      simp
    · rw [readFile_header (Nat.le_of_not_lt hn), hlen, strnceq_dumpHeaderWrite,
        if_neg (not_not_intro rfl), if_neg Bool.true_eq_false_eq_False]
      refine dumpRestoreFrom_spec halloc (fun r hr => ?_) h.records_nodup ?_ (by omega) h₀
      · exact hfits r.2 r.1 (h.mem_records.mp hr)
      · rw [dumpExecute, List.drop_take, ← hlen, List.drop_left, dumpNodeWrite_eq]
  refine ⟨s₁, hs₁, hwf, hspec, fun hn key => Option.ext fun v => ?_⟩
  have hall : whole L (n - dumpHeaderSize) (records s) = records s := by
    refine whole_all ?_
    rw [dumpExecute, List.length_append, length_dumpHeaderWrite, dumpNodeWrite_eq] at hn
    omega
  rw [hspec, hall, h.mem_records]
  cases contents e s₀ key with
  | none => simp
  | some v₀ => simp

/-- The bytes of a struct that say how long the key is, where all nodes are alike. -/
def lengthLayout (v : TrafficNode) : Layout where
  size := 2
  size_pos := by decide
  write _ len := [UInt8.ofNat len.toNat, UInt8.ofNat (len.toNat / 256)]
  read bytes := (v, UInt16.ofNat ((bytes.getD 0 0).toNat + 256 * (bytes.getD 1 0).toNat))
  length_write _ _ := rfl

theorem lengthLayout_keeps (v : TrafficNode) : (lengthLayout v).Keeps v := by
  intro len
  have hlt := len.toNat_lt
  refine Prod.ext rfl (UInt16.toNat.inj ?_)
  simp [lengthLayout]
  omega

/-- Memory behind all that is allocated. -/
def behindAll (s : Shm Bool Unit) : Alloc :=
  .slot ((s.rbtree.toList.map KeyedNode.addr).sum + 1) freshMemory

theorem behindAll_free {s : Shm Bool Unit} (h : s.Wf e) :
    ∃ a raw, behindAll s = .slot a raw ∧ s.mem a = none := by
  refine ⟨_, _, rfl, ?_⟩
  by_contra hne
  have hmem := (h.live _).mp hne
  have hle := List.le_sum_of_mem hmem
  omega

/-- A request of a server. -/
def oneServer : Act Bool Unit :=
  .account true () (serverNode 97) .no shortRequest true (.slot 1 freshMemory)

/-- The struct of the node that the request is accounted in. -/
def oneLayout : Layout := lengthLayout (firstAccess .no shortRequest freshMemory)

/-- The node of a server is dumped, and the zone that it is restored in has the same ledger. -/
theorem dump_roundTrip_server : ∃ s s₁ : Shm Bool Unit,
    (shmSys Bool Unit noLimit).exec freshShm [oneServer] = some s ∧
    dumpRestore oneLayout noLimit [118] behindAll
      ((dumpExecute oneLayout [118] 0 0 s).take 200) freshShm = some s₁ ∧
    (contents noLimit s (serverNode 97)).isSome ∧
    ∀ key, contents noLimit s₁ key = contents noLimit s key := by
  have hwf₀ : freshShm.Wf noLimit := shm_wf_init rfl
  have hact : oneServer.Within {serverNode 97} := ⟨rfl, by decide⟩
  obtain ⟨s, hs, hlen⟩ : ∃ s, freshShm.step noLimit oneServer = some s ∧
      decide ((dumpExecute oneLayout [118] 0 0 s).length ≤ 200) = true := by
    refine Option.map_eq_some_iff.mp ?_
    decide +kernel
  have hcontents : contents noLimit s = Function.update (fun _ => none) (serverNode 97)
      (some (firstAccess .no shortRequest freshMemory)) :=
    (hwf₀.contents_step (Set.injOn_singleton _ _) (by simp [Shm.Keyed, freshShm]) hact hs).trans
      (by simp [entries, oneServer, show evicted noLimit true freshShm = none from rfl]; rfl)
  have hfits : ∀ key v, contents noLimit s key = some v → Restorable oneLayout (v, key) := by
    intro key v hv
    rw [hcontents] at hv
    by_cases hkey : key = serverNode 97
    · subst hkey
      obtain rfl : _ = v := by simpa using hv
      exact ⟨lengthLayout_keeps _, by decide, by decide⟩
    · simp [Function.update_of_ne hkey] at hv
  obtain ⟨s₁, hs₁, -, -, hall⟩ := dump_roundTrip (fun s h => behindAll_free h)
    (hwf₀.step hact.short hs) hfits hwf₀ [118] 0 0 200
  have hexec : (shmSys Bool Unit noLimit).exec freshShm [oneServer] = some s := by
    simp [Sys.exec, Sys.execIf, shmSys, hs]
  refine ⟨s, s₁, hexec, hs₁, by simp [hcontents], fun key => ?_⟩
  rw [hall (of_decide_eq_true hlen)]
  rfl

end NginxTools.VhostTrafficStatus

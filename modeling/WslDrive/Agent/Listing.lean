import WslDrive.Agent.Sending

/-!
# A directory in a snapshot

What loading a snapshot and receiving batches make of the files of one directory.

* `Listing` — the entries of a snapshot on the way to the directory, and its files;
* `Listing.holds_load` — the mirror after `load_snapshot`;
* `Directory.Holds.applyOps` — the mirror after the ops of a batch.
-/

namespace WslDrive

open MetadataTree Path

/-- Directories of a snapshot, each the parent of the next one; the index of the first one's parent
is `k`. -/
inductive Leads : ℕ → List Bytes → List SnapshotEntry → Prop
  | nil {k : ℕ} : Leads k [] []
  | cons {k : ℕ} {e : SnapshotEntry} {cs : List Bytes} {es : List SnapshotEntry}
      (hparent : e.parent.toNat = k) (hdir : e.attr.kind = .directory)
      (h : Leads (k + 1) cs es) : Leads k (e.name :: cs) (e :: es)

/-- A snapshot of the directory: the way to it, and then its files. -/
structure Listing (d : Directory) (above files : List SnapshotEntry) : Prop where
  above : Leads 0 d.names above
  parent : ∀ e ∈ files, e.parent.toNat = d.names.length
  nodup : (files.map (·.name)).Nodup

/-- What a snapshot says about a file. -/
def found (files : List SnapshotEntry) (n : Bytes) : Option Attributes :=
  (files.find? (·.name == n)).map (·.attr)

theorem found_cons (e : SnapshotEntry) (files : List SnapshotEntry) (n : Bytes) :
    found (e :: files) n = if e.name = n then some e.attr else found files n := by
  rw [found, List.find?_cons]
  by_cases h : e.name = n
  · rw [beq_iff_eq.2 h, if_pos h]
    rfl
  · rw [beq_eq_false_iff_ne.2 h, if_neg h]
    rfl

theorem exists_of_found {files : List SnapshotEntry} {n : Bytes} {a : Attributes}
    (h : found files n = some a) : ∃ e ∈ files, e.name = n ∧ e.attr = a := by
  obtain ⟨e, he, rfl⟩ := Option.map_eq_some_iff.1 h
  exact ⟨e, List.mem_of_find?_eq_some he, by simpa using List.find?_some he, rfl⟩

theorem found_of_mem {files : List SnapshotEntry} {e : SnapshotEntry}
    (hnodup : (files.map (·.name)).Nodup) (he : e ∈ files) : found files e.name = some e.attr := by
  induction files with
  | nil => cases he
  | cons e' files ih =>
    rw [List.map_cons, List.nodup_cons] at hnodup
    rw [found_cons]
    rcases List.mem_cons.1 he with rfl | he
    · rw [if_pos rfl]
    · rw [if_neg fun h : e'.name = e.name => hnodup.1 (h ▸ List.mem_map_of_mem he),
        ih hnodup.2 he]

/-! ### Loading -/

namespace PathMap

variable {M : PathMap} {ps : List (Option (List Bytes))} {p : List Bytes} {a : Attributes} {k : ℕ}

theorem load_cons {e : SnapshotEntry} (hp : ps[e.parent.toNat]? = some (some p))
    (hdir : M p = some a) (hk : a.kind = .directory) (hname : validName e.name = true)
    (hnew : M (p ++ [e.name]) = none) (es : List SnapshotEntry) :
    load M ps (e :: es) =
      load (M.add (p ++ [e.name]) e.attr) (ps ++ [some (p ++ [e.name])]) es := by
  rw [load, hp]
  dsimp only
  rw [if_pos (by simp [free, hdir, hk, hname, hnew])]

theorem load_leads {cs : List Bytes} {es : List SnapshotEntry} (h : Leads k cs es)
    (hcs : ∀ c ∈ cs, validName c = true) (hlen : ps.length = k + 1)
    (hp : ps[k]? = some (some p)) (hdir : M p = some a) (hk : a.kind = .directory)
    (hbelow : ∀ c q, M (p ++ c :: q) = none) :
    ∃ M' ps' a', ps'[k + cs.length]? = some (some (p ++ cs)) ∧ M' (p ++ cs) = some a' ∧
      a'.kind = .directory ∧ (∀ c q, M' (p ++ cs ++ c :: q) = none) ∧
      ∀ rest, load M ps (es ++ rest) = load M' ps' rest := by
  induction h generalizing M ps p a with
  | nil => exact ⟨M, ps, a, by simpa using hp, by simpa using hdir, hk, by simpa using hbelow,
      fun _ => rfl⟩
  | @cons k e cs es hparent hkind h ih =>
    have hp' : ps[e.parent.toNat]? = some (some p) := by rw [hparent, hp]
    have hlast : (ps ++ [some (p ++ [e.name])])[k + 1]? = some (some (p ++ [e.name])) := by
      rw [← hlen, List.getElem?_concat_length]
    obtain ⟨M', ps', a', hps', hM', hk', hbelow', hload⟩ := ih
      (M := M.add (p ++ [e.name]) e.attr) (fun c hc => hcs c (List.mem_cons_of_mem _ hc))
      (by simp [hlen]) hlast (by rw [add, Function.update_self]) hkind fun c q => by
        rw [add, Function.update_of_ne (by simp), List.append_assoc]
        exact hbelow _ _
    rw [List.append_assoc] at hps' hM'
    refine ⟨M', ps', a', ?_, hM', hk', fun c q => ?_, fun rest => ?_⟩
    · rw [List.length_cons, Nat.add_comm cs.length, ← Nat.add_assoc]
      exact hps'
    · have := hbelow' c q
      rw [List.append_assoc p] at this
      exact this
    · rw [List.cons_append, load_cons hp' hdir hk (hcs _ List.mem_cons_self) (hbelow _ _)]
      exact hload rest

theorem load_files {files : List SnapshotEntry} (hp : ps[k]? = some (some p))
    (hparent : ∀ e ∈ files, e.parent.toNat = k) (hname : ∀ e ∈ files, validName e.name = true)
    (hnodup : (files.map (·.name)).Nodup) (hdir : M p = some a) (hk : a.kind = .directory)
    (hnew : ∀ e ∈ files, M (p ++ [e.name]) = none) :
    load M ps files p = some a ∧
      ∀ n, load M ps files (p ++ [n]) = (found files n).or (M (p ++ [n])) := by
  induction files generalizing M ps with
  | nil => exact ⟨hdir, fun n => rfl⟩
  | cons e files ih =>
    rw [List.map_cons, List.nodup_cons] at hnodup
    have hp' : (ps ++ [some (p ++ [e.name])])[k]? = some (some p) := by
      rw [List.getElem?_append_left (List.getElem?_eq_some_iff.1 hp).1, hp]
    obtain ⟨hkeep, hfiles⟩ := ih (M := M.add (p ++ [e.name]) e.attr) hp'
      (fun e' he' => hparent e' (List.mem_cons_of_mem _ he'))
      (fun e' he' => hname e' (List.mem_cons_of_mem _ he')) hnodup.2
      (by rw [add, Function.update_of_ne (by simp), hdir]) fun e' he' => by
        rw [add, Function.update_of_ne]
        · exact hnew e' (List.mem_cons_of_mem _ he')
        · intro heq
          have hsame : e'.name = e.name := by simpa using heq
          exact hnodup.1 (hsame ▸ List.mem_map_of_mem he')
    rw [load_cons (by rw [hparent e List.mem_cons_self, hp]) hdir hk (hname e List.mem_cons_self)
      (hnew e List.mem_cons_self)]
    refine ⟨hkeep, fun n => ?_⟩
    rw [hfiles n, found_cons]
    by_cases hn : e.name = n
    · subst hn
      have hnone : found files e.name = none := by
        rw [Option.eq_none_iff_forall_ne_some]
        intro b hb
        obtain ⟨e', he', hname', -⟩ := exists_of_found hb
        exact hnodup.1 (hname' ▸ List.mem_map_of_mem he')
      rw [if_pos rfl, hnone, add, Function.update_self]
      rfl
    · rw [if_neg hn, add, Function.update_of_ne]
      simpa using fun h : n = e.name => hn h.symm

end PathMap

theorem MetadataTree.loadLoop_ok {es : List SnapshotEntry} (t : MetadataTree)
    (ids : List (Option NodeId))
    (h : ∀ k e, es[k]? = some e → e.parent.toNat < ids.length + k) :
    (loadLoop t ids es).1 = .ok () := by
  induction es generalizing t ids with
  | nil => rfl
  | cons e es ih =>
    have hrest : ∀ o : Option NodeId, ∀ k e', es[k]? = some e' →
        e'.parent.toNat < (ids ++ [o]).length + k := by
      intro o k e' he'
      have := h (k + 1) e' he'
      rw [List.length_append, List.length_singleton]
      omega
    have hlt : e.parent.toNat < ids.length := h 0 e rfl
    rw [loadLoop, List.getElem?_eq_getElem hlt]
    cases ids[e.parent.toNat] with
    | none => exact ih _ _ (hrest none)
    | some parent =>
      dsimp only
      rcases t.insert parent e.name e.attr with ⟨_ | id, t'⟩
      · exact ih _ _ (hrest none)
      · exact ih _ _ (hrest (some id))

theorem Leads.length_eq {k : ℕ} {cs : List Bytes} {es : List SnapshotEntry} (h : Leads k cs es) :
    es.length = cs.length := by
  induction h with
  | nil => rfl
  | cons _ _ _ ih => rw [List.length_cons, List.length_cons, ih]

theorem Leads.parent_eq {k : ℕ} {cs : List Bytes} {es : List SnapshotEntry} (h : Leads k cs es)
    {i : ℕ} {e : SnapshotEntry} (hi : es[i]? = some e) : e.parent.toNat = k + i := by
  induction h generalizing i with
  | nil => simp at hi
  | cons hparent _ _ ih =>
    cases i with
    | zero =>
      cases hi
      exact hparent
    | succ i =>
      rw [ih hi]
      omega

namespace Listing

variable {d : Directory} {above files : List SnapshotEntry}

theorem load_ok (h : Listing d above files) (t : MetadataTree) :
    (t.loadSnapshot (above ++ files)).1 = .ok () := by
  refine loadLoop_ok _ _ fun k e he => ?_
  rw [List.length_singleton]
  rcases Nat.lt_or_ge k above.length with hk | hk
  · rw [List.getElem?_append_left hk] at he
    rw [h.above.parent_eq he]
    omega
  · rw [List.getElem?_append_right hk] at he
    rw [h.parent e (List.mem_of_getElem? he), ← h.above.length_eq]
    omega

/-- **The mirror after a snapshot** has the directory, and in it what the snapshot says. -/
theorem holds_load (h : Listing d above files) (hname : ∀ e ∈ files, validName e.name = true)
    (hkind : ∀ e ∈ files, e.attr.kind ≠ .directory) (t : MetadataTree) :
    d.Holds (t.loadSnapshot (above ++ files)).2 ∧
      d.files (t.loadSnapshot (above ++ files)).2 = found files := by
  have hroot : [some ([] : List Bytes)][0]? = some (some []) := rfl
  obtain ⟨M, ps, a, hps, hM, hk, hbelow, hload⟩ := PathMap.load_leads (M := .empty) h.above
    d.valid rfl hroot rfl rfl fun c q => rfl
  rw [Nat.zero_add, List.nil_append] at hps
  simp only [List.nil_append] at hM hbelow
  obtain ⟨hdir, hfiles⟩ := PathMap.load_files hps h.parent hname h.nodup hM hk
    fun e _ => hbelow _ _
  have hkept := wf_fresh.kept_loadLoop [some root] (above ++ files)
  have hpaths : (t.loadSnapshot (above ++ files)).2.paths = PathMap.load M ps files := by
    rw [loadSnapshot_paths, hload]
  have hfound : d.files (t.loadSnapshot (above ++ files)).2 = found files := by
    funext n
    rw [Directory.files, hpaths, hfiles, hbelow, Option.or_none]
  refine ⟨⟨hkept.wf, hkept.root_dir rfl, ⟨a, by rw [hpaths, hdir], hk⟩, fun n b hb => ?_⟩, hfound⟩
  rw [hfound] at hb
  obtain ⟨e, he, -, rfl⟩ := exists_of_found hb
  exact hkind e he

end Listing

/-! ### Batches -/

open Agreement

/-- **The ops of a batch** reach the files they are about. -/
theorem Directory.Holds.applyOps {d : Directory} {t : MetadataTree} (h : d.Holds t)
    {ops : List InvalidationOp} (hops : ∀ op ∈ ops, ∃ m, d.About m op) (gen : UInt64) :
    let t' := ops.foldl (fun t op => RemoteRoot.applyTree t .exact op) t
    d.Holds t' ∧ ∀ n, validName n = true →
      d.files t' n = Feed.applied (values d n gen ops) (d.files t n) := by
  induction ops generalizing t with
  | nil => exact ⟨h, fun n _ => rfl⟩
  | cons op ops ih =>
    obtain ⟨m, hop⟩ := hops op List.mem_cons_self
    have hb := h.applyTree hop
    have hholds : d.Holds (RemoteRoot.applyTree t .exact op) :=
      hb.holds h (Directory.entries_update h.file fun _ => hop.value_kind)
    obtain ⟨h', hfiles⟩ := ih hholds fun op' hop' => hops op' (List.mem_cons_of_mem _ hop')
    refine ⟨h', fun n hn => ?_⟩
    rw [List.foldl_cons, hfiles n hn, ← List.singleton_append (l := ops), values_append,
      Feed.applied_append, values_singleton gen hop hn, hb.files]
    split_ifs with hnm
    · rw [hnm, Function.update_self]
      rfl
    · rw [Function.update_of_ne hnm]
      rfl

theorem Directory.Holds.replays {d : Directory} {t : MetadataTree} (h : d.Holds t)
    (bs : List InvalidationBatch) (hbs : ∀ b ∈ bs, ∀ op ∈ b.ops, ∃ m, d.About m op) :
    d.Holds (bs.foldl RemoteRoot.replay t) ∧ ∀ n, validName n = true →
      d.files (bs.foldl RemoteRoot.replay t) n =
        Feed.applied (bs.flatMap fun b => values d n b.generation b.ops) (d.files t n) := by
  induction bs generalizing t with
  | nil => exact ⟨h, fun n _ => rfl⟩
  | cons b bs ih =>
    obtain ⟨hb, hfiles⟩ := h.applyOps (hbs b List.mem_cons_self) b.generation
    obtain ⟨h', hfiles'⟩ := ih hb fun b' hb' => hbs b' (List.mem_cons_of_mem _ hb')
    refine ⟨h', fun n hn => ?_⟩
    rw [List.flatMap_cons, Feed.applied_append, ← hfiles n hn]
    exact hfiles' n hn

end WslDrive

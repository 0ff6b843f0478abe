import Mathlib.Data.List.DropRight
import LinuxDriverLab.Framework.FileTree
import LinuxDriverLab.Framework.Lines
import LinuxDriverLab.Kernel.Printf

/-!
# Uploading the sources

`deploy_module.py` makes the remote directory, with the directories above it, and puts the sources
into it. The sftp server is a parameter. On one that keeps a tree of files without links, and takes
names other than `.` and `..` as they are, the upload does what it does on the tree itself.
-/

namespace LinuxDriverLab.RemoteTools.DeployModule

/-- What `paramiko` gives of the other machine: whether `stat` finds something, and `mkdir` and `put`,
which may raise an error. -/
structure Sftp (σ : Type) where
  stat : σ → Bytes → Bool
  mkdir : σ → Bytes → Option σ
  put : σ → Bytes → Bytes → Option σ

variable {σ : Type}

/-- `path.strip("/")` -/
def strip (path : Bytes) : Bytes := (path.dropWhile (· = 47)).rdropWhile (· = 47)

/-- `path.rstrip("/")` -/
def rstrip (path : Bytes) : Bytes := path.rdropWhile (· = 47)

/-- The locals of `mkdirs_p` and the server, with the directories that have been made. -/
structure Mkdirs (σ : Type) where
  server : σ
  cur : Bytes
  made : List Bytes

/-- One turn of the loop; an error of `mkdir` is not caught. -/
def mkdirsStep (S : Sftp σ) (s : Mkdirs σ) (p : Bytes) : Option (Mkdirs σ) :=
  let cur := s.cur ++ 47 :: p
  if S.stat s.server cur then some { s with cur }
  else (S.mkdir s.server cur).map fun server => ⟨server, cur, s.made ++ [cur]⟩

def mkdirsLoop (S : Sftp σ) : Mkdirs σ → List Bytes → Option (Mkdirs σ)
  | s, [] => some s
  | s, p :: ps => (mkdirsStep S s p).bind fun s => mkdirsLoop S s ps

/-- `mkdirs_p` -/
def mkdirsP (S : Sftp σ) (server : σ) (path : Bytes) : Option (Mkdirs σ) :=
  mkdirsLoop S ⟨server, [], []⟩ ((strip path).splitOn 47)

/-- `SRC_EXTS` -/
def srcExts : List Bytes := [literal ".c", literal ".h", literal "Makefile", literal "Kbuild"]

/-- `fn.endswith(SRC_EXTS)` -/
def isSource (fn : Bytes) : Bool := srcExts.any fun ext => ext.isSuffixOf fn

/-- The names in a path. -/
def names (path : Bytes) : List Bytes := (path.splitOn 47).filter (· ≠ [])

/-- A name that a directory can have, and that stands for itself -/
structure PlainName (n : Bytes) : Prop where
  nonempty : n ≠ []
  noSlash : (47 : UInt8) ∉ n
  noNul : (0 : UInt8) ∉ n
  noDot : n ≠ literal "."
  noDots : n ≠ literal ".."

instance (n : Bytes) : Decidable (PlainName n) :=
  decidable_of_iff (n ≠ [] ∧ (47 : UInt8) ∉ n ∧ (0 : UInt8) ∉ n ∧ n ≠ literal "." ∧ n ≠ literal "..")
    ⟨fun ⟨h₁, h₂, h₃, h₄, h₅⟩ => ⟨h₁, h₂, h₃, h₄, h₅⟩, fun ⟨h₁, h₂, h₃, h₄, h₅⟩ => ⟨h₁, h₂, h₃, h₄, h₅⟩⟩

/-- The local directory, as `listdir` gives it in order; what is no file has no content. -/
structure LocalDir where
  entries : List (Bytes × Option Bytes)
  nodup : (entries.map Prod.fst).Nodup
  plain : ∀ x ∈ entries, PlainName x.1

/-- The loop that uploads. -/
def upload (S : Sftp σ) (remoteDir : Bytes) : σ → List (Bytes × Option Bytes) → Option σ
  | server, [] => some server
  | server, (fn, content) :: rest =>
    if isSource fn then
      content.bind fun content =>
        (S.put server (rstrip remoteDir ++ 47 :: fn) content).bind fun server =>
          upload S remoteDir server rest
    else upload S remoteDir server rest

/-- Step 1 of `main` -/
def uploadSources (S : Sftp σ) (server : σ) (remoteDir : Bytes) (dir : LocalDir) : Option σ :=
  (mkdirsP S server remoteDir).bind fun s => upload S remoteDir s.server dir.entries

/-- `infer_module_name` -/
def inferModuleName (dir : LocalDir) : Option Bytes :=
  match (dir.entries.map Prod.fst).filter fun fn => (literal ".c").isSuffixOf fn with
  | [fn] => some (fn.take (fn.length - 2))
  | _ => none

/-! ## The server

A path is looked up from the root, or from the directory of the user.
-/

/-- The place of a path without `.`, `..` and links -/
def resolve (home : List Bytes) (path : Bytes) : List Bytes :=
  if path.head? = some 47 then names path else home ++ names path

/-- A path that ends in a slash is that of a directory. -/
def present (home : List Bytes) (t : Tree Bytes Bytes) (path : Bytes) : Bool :=
  if path.getLast? = some 47 then t.isDir (resolve home path) else (t (resolve home path)).isSome

def Plain (path : Bytes) : Prop := ∀ n ∈ names path, PlainName n

instance (path : Bytes) : Decidable (Plain path) :=
  inferInstanceAs (Decidable (∀ n ∈ names path, PlainName n))

/-- The server keeps the tree `view` of files, and refuses only what the tree cannot take. -/
structure Sftp.Serves (S : Sftp σ) (home : List Bytes) (view : σ → Tree Bytes Bytes) : Prop where
  stat : ∀ s path, Plain path → S.stat s path = present home (view s) path
  mkdir : ∀ s path, Plain path → (S.mkdir s path).map view = (view s).mkdir (resolve home path)
  put : ∀ s dir fn content, Plain dir → PlainName fn →
    (S.put s (dir ++ 47 :: fn) content).map view = (view s).put (resolve home (dir ++ 47 :: fn)) content

/-- The tree itself, which takes every name as it is. -/
def treeServer (home : List Bytes) : Sftp (Tree Bytes Bytes) where
  stat := present home
  mkdir t path := t.mkdir (resolve home path)
  put t path content := t.put (resolve home path) content

theorem treeServer_put (home : List Bytes) (t : Tree Bytes Bytes) (path content : Bytes) :
    (treeServer home).put t path content = t.put (resolve home path) content := rfl

theorem treeServer_serves (home : List Bytes) : (treeServer home).Serves home id where
  stat _ _ _ := rfl
  mkdir _ _ _ := Option.map_id_apply
  put _ _ _ _ _ _ := Option.map_id_apply

/-- The directory that the uploads name. -/
def uploadDir (home : List Bytes) (remoteDir : Bytes) : List Bytes :=
  resolve home (rstrip remoteDir ++ [47])

/-! ## Names -/

theorem names_append (a b : Bytes) : names (a ++ 47 :: b) = names a ++ names b := by
  rw [names, List.splitOn_append_cons_self, List.filter_append, names, names]

theorem names_slash (p : Bytes) : names (47 :: p) = names p := names_append [] p

theorem names_name {p : Bytes} (h : (47 : UInt8) ∉ p) : names p = [p].filter (· ≠ []) := by
  rw [names, List.splitOn_eq_singleton h]

theorem names_dropWhile (path : Bytes) : names (path.dropWhile (· = 47)) = names path := by
  induction path with
  | nil => rfl
  | cons b path ih =>
    rw [List.dropWhile_cons]
    split
    · next hb =>
      obtain rfl : b = 47 := by simpa using hb
      rw [ih, names_slash]
    · rfl

theorem names_rstrip (path : Bytes) : names (rstrip path) = names path := by
  induction path using List.reverseRecOn with
  | nil => rfl
  | append_singleton path b ih =>
    rw [rstrip, List.rdropWhile_concat]
    split
    · next hb =>
      obtain rfl : b = 47 := by simpa using hb
      have hempty : names (path ++ 47 :: []) = names path := by
        rw [names_append, names_name List.not_mem_nil]
        simp
      exact ih.trans hempty.symm
    · rfl

theorem names_strip (path : Bytes) : names (strip path) = names path :=
  (names_rstrip _).trans (names_dropWhile path)

/-- A path that is built from the root on -/
def FromRoot (cur : Bytes) : Prop := cur = [] ∨ cur.head? = some 47

theorem FromRoot.resolve_concat (home : List Bytes) {cur : Bytes} (h : FromRoot cur) (p : Bytes) :
    resolve home (cur ++ 47 :: p) = names cur ++ names p := by
  have hhead : (cur ++ 47 :: p).head? = some 47 := by
    rcases h with rfl | h
    · rfl
    · rw [List.head?_append, h]
      rfl
  rw [resolve, if_pos hhead, names_append]

theorem FromRoot.concat {cur : Bytes} (h : FromRoot cur) (p : Bytes) : FromRoot (cur ++ 47 :: p) := by
  rcases h with rfl | h
  · exact .inr rfl
  · exact .inr (by rw [List.head?_append, h]; rfl)

/-! ## The directories -/

/-- The locals of `mkdirs_p` when it has come to the directory `q`. -/
structure At (t : Tree Bytes Bytes) (q : List Bytes) (s : Mkdirs (Tree Bytes Bytes)) : Prop where
  fromRoot : FromRoot s.cur
  place : names s.cur = q
  server : s.server = t.withDirs q

section

variable {t : Tree Bytes Bytes} (home : List Bytes) {q : List Bytes} {s : Mkdirs (Tree Bytes Bytes)}
  {p : Bytes}

theorem At.empty (h : At t q s) :
    (((t q).isSome → t.isDir q) → ∃ s', mkdirsStep (treeServer home) s [] = some s' ∧ At t q s' ∧
      s'.made = s.made) ∧
    (¬ ((t q).isSome → t.isDir q) → mkdirsStep (treeServer home) s [] = none) := by
  have hplace : resolve home (s.cur ++ [47]) = q := by
    rw [h.fromRoot.resolve_concat home [], h.place, names_name List.not_mem_nil]
    simp
  have hnames : names (s.cur ++ [47]) = q := by
    rw [names_append s.cur [], h.place, names_name List.not_mem_nil]
    simp
  have hmkdir : (t.withDirs q).mkdir q = none := by
    rw [Tree.mkdir, if_neg]
    intro hn
    have hsome := Tree.isSome_withDirs (t := t) (q := q)
    rw [Option.isNone_iff_eq_none.mp hn.1] at hsome
    cases hsome
  have hstep : mkdirsStep (treeServer home) s [] =
      if (t.withDirs q).isDir q then some { s with cur := s.cur ++ [47] } else none := by
    simp only [mkdirsStep, treeServer, present, List.getLast?_concat, if_true, hplace, h.server, hmkdir,
      Option.map_none]
  rw [hstep]
  constructor
  · intro hdir
    rw [if_pos (Tree.withDirs_isDir_iff.mpr hdir)]
    exact ⟨_, rfl, ⟨h.fromRoot.concat [], hnames, h.server⟩, rfl⟩
  · intro hfile
    rw [if_neg (fun hn => hfile (Tree.withDirs_isDir_iff.mp hn))]

theorem At.name (hvalid : t.Valid) (h : At t q s) (hp : p ≠ []) (hslash : (47 : UInt8) ∉ p) :
    (((t q).isSome → t.isDir q) → ∃ s', mkdirsStep (treeServer home) s p = some s' ∧
      At t (q ++ [p]) s' ∧ s'.made.map (resolve home) =
        s.made.map (resolve home) ++ if (t (q ++ [p])).isNone then [q ++ [p]] else []) ∧
    (¬ ((t q).isSome → t.isDir q) → mkdirsStep (treeServer home) s p = none) := by
  have hname : names p = [p] := by rw [names_name hslash]; simp [hp]
  have hplace : resolve home (s.cur ++ 47 :: p) = q ++ [p] := by
    rw [h.fromRoot.resolve_concat home p, h.place, hname]
  have hnames : names (s.cur ++ 47 :: p) = q ++ [p] := by
    rw [names_append, h.place, hname]
  have hlast : (s.cur ++ 47 :: p).getLast? ≠ some 47 := by
    intro hend
    rw [List.getLast?_append_cons, List.getLast?_cons_of_ne_nil hp] at hend
    exact hslash (List.mem_of_getLast? hend)
  have hstat : present home (t.withDirs q) (s.cur ++ 47 :: p) = (t (q ++ [p])).isSome := by
    rw [present, if_neg hlast, hplace, Tree.withDirs_self_eq]
  cases hq : t (q ++ [p]) with
  | some n =>
    have hsome : (t (q ++ [p])).isSome := by rw [hq]; rfl
    have hdir := hvalid.parent q p hsome
    constructor
    · intro _
      refine ⟨{ s with cur := s.cur ++ 47 :: p }, ?_, ⟨h.fromRoot.concat p, hnames, ?_⟩, by simp⟩
      · simp only [mkdirsStep, treeServer, h.server, hstat, hsome, if_true]
      · rw [Tree.withDirs_concat_of_isSome hsome]
        exact h.server
    · exact fun hn => absurd (fun _ => hdir) hn
  | none =>
    have hstep : mkdirsStep (treeServer home) s p =
        (if (t.withDirs q).isDir q then some (t.withDirs (q ++ [p])) else none).map fun t =>
          ⟨t, s.cur ++ 47 :: p, s.made ++ [s.cur ++ 47 :: p]⟩ := by
      simp only [mkdirsStep, treeServer, h.server, hstat, hplace, hq, Tree.mkdir_withDirs hq,
        Option.isSome_none, Bool.false_eq_true, if_false]
    rw [hstep]
    constructor
    · intro hdir
      rw [if_pos (Tree.withDirs_isDir_iff.mpr hdir)]
      refine ⟨_, rfl, ⟨h.fromRoot.concat p, hnames, rfl⟩, ?_⟩
      simp [hplace]
    · intro hfile
      rw [if_neg fun hn => hfile (Tree.withDirs_isDir_iff.mp hn)]
      rfl

theorem mkdirsLoop_spec (hvalid : t.Valid) {ps : List Bytes} (hps : ∀ p ∈ ps, (47 : UInt8) ∉ p)
    (hend : ps.getLast? ≠ some []) (h : At t q s) (hclear : t.Clear q) :
    (t.Clear (q ++ ps.filter (· ≠ [])) → ∃ s', mkdirsLoop (treeServer home) s ps = some s' ∧
      s'.server = t.withDirs (q ++ ps.filter (· ≠ [])) ∧
      s'.made.map (resolve home) = s.made.map (resolve home) ++ t.missing q (ps.filter (· ≠ []))) ∧
    (¬ t.Clear (q ++ ps.filter (· ≠ [])) → mkdirsLoop (treeServer home) s ps = none) := by
  induction ps generalizing s q with
  | nil =>
    rw [List.filter_nil, List.append_nil]
    exact ⟨fun _ => ⟨s, rfl, h.server, by simp [Tree.missing]⟩, fun hn => absurd hclear hn⟩
  | cons p ps ih =>
    have hrest : ∀ p ∈ ps, (47 : UInt8) ∉ p := fun r hr => hps r (List.mem_cons_of_mem p hr)
    have hend' : ps.getLast? ≠ some [] := by
      intro hlast
      refine hend ?_
      rwa [List.getLast?_cons_of_ne_nil (by rintro rfl; cases hlast)]
    -- the path goes on below `q`
    have hbelow : t.Clear (q ++ (p :: ps).filter (· ≠ [])) → (t q).isSome → t.isDir q := by
      intro hc hsome
      refine hc q (List.prefix_append q _) ?_ hsome
      intro heq
      have hempty : (p :: ps).filter (· ≠ []) = [] := List.self_eq_append_right.mp heq
      have hlast := List.getLast?_eq_some_getLast (List.cons_ne_nil p ps)
      have hnil := List.filter_eq_nil_iff.mp hempty _ (List.mem_of_getLast? hlast)
      exact hend (hlast.trans (congrArg some (by simpa using hnil)))
    by_cases hp : p = []
    · subst hp
      obtain ⟨hgood, hbad⟩ := h.empty home
      have hskip : ([] :: ps).filter (· ≠ []) = ps.filter (· ≠ []) := by simp
      rw [hskip] at hbelow ⊢
      by_cases hdir : (t q).isSome → t.isDir q
      · obtain ⟨s', hs', hat, hmade⟩ := hgood hdir
        have hloop := ih hrest hend' hat hclear
        rw [hmade] at hloop
        simpa only [mkdirsLoop, hs', Option.bind_some] using hloop
      · exact ⟨fun hc => absurd (hbelow hc) hdir, fun _ => by rw [mkdirsLoop, hbad hdir]; rfl⟩
    · have hkeep : (p :: ps).filter (· ≠ []) = p :: ps.filter (· ≠ []) :=
        List.filter_cons_of_pos (by simpa using hp)
      have hcat : q ++ p :: ps.filter (· ≠ []) = (q ++ [p]) ++ ps.filter (· ≠ []) := by simp
      obtain ⟨hgood, hbad⟩ := h.name home hvalid hp (hps p List.mem_cons_self)
      rw [hkeep] at hbelow ⊢
      by_cases hdir : (t q).isSome → t.isDir q
      · rw [hcat]
        obtain ⟨s', hs', hat, hmade⟩ := hgood hdir
        obtain ⟨hok, herr⟩ := ih hrest hend' hat (Tree.clear_concat.mpr ⟨hclear, hdir⟩)
        constructor
        · intro hc
          obtain ⟨u, hu, hfs, humade⟩ := hok hc
          refine ⟨u, by rw [mkdirsLoop, hs', Option.bind_some, hu], hfs, ?_⟩
          rw [humade, hmade, Tree.missing, List.append_assoc]
        · intro hc
          rw [mkdirsLoop, hs', Option.bind_some, herr hc]
      · exact ⟨fun hc => absurd (hbelow hc) hdir, fun _ => by rw [mkdirsLoop, hbad hdir]; rfl⟩

end

/-- `mkdirs_p` makes the directories that are missing, the upper ones first, and nothing else; it fails
if a file stands in the way. -/
theorem mkdirsP_spec {t : Tree Bytes Bytes} (hvalid : t.Valid) (home : List Bytes) (path : Bytes) :
    (t.Clear (names path) → ∃ s, mkdirsP (treeServer home) t path = some s ∧
      s.server = t.withDirs (names path) ∧ s.made.map (resolve home) = t.missing [] (names path)) ∧
    (¬ t.Clear (names path) → mkdirsP (treeServer home) t path = none) := by
  have hat : At t [] ⟨t, [], []⟩ := ⟨.inl rfl, rfl, (Tree.withDirs_nil hvalid).symm⟩
  have hclear : t.Clear [] := fun p hp hne => absurd (List.prefix_nil.mp hp) hne
  have hnames : ((strip path).splitOn 47).filter (· ≠ []) = names path := names_strip path
  by_cases hstrip : strip path = []
  · -- of the root there is one turn, with an empty name
    have hroot : names path = [] := by rw [← names_strip, hstrip]; rfl
    obtain ⟨s, hs, hs', hmade⟩ := (hat.empty home).1 fun _ => hvalid.root
    have hloop : mkdirsP (treeServer home) t path = some s := by
      rw [mkdirsP, hstrip, List.splitOn_nil, mkdirsLoop, hs]
      rfl
    rw [hroot, hloop]
    exact ⟨fun _ => ⟨s, rfl, hs'.server, by rw [hmade]; rfl⟩, fun hn => absurd hclear hn⟩
  · have hslash : ∀ p ∈ (strip path).splitOn 47, (47 : UInt8) ∉ p := fun _ => Lines.sep_notMem
    have hend : ((strip path).splitOn 47).getLast? ≠ some [] := by
      have hlast : (strip path).getLast hstrip ≠ 47 := by
        have hnot := List.rdropWhile_last_not (· = (47 : UInt8)) (path.dropWhile (· = 47)) hstrip
        exact fun heq => hnot (decide_eq_true heq)
      rw [← List.dropLast_append_getLast hstrip, Lines.getLast?_splitOn hlast]
      simp
    have hspec := mkdirsLoop_spec home hvalid hslash hend hat hclear
    simpa only [mkdirsP, hnames, List.nil_append, List.map_nil] using hspec

/-! ## The files -/

/-- An entry that is no source, or a file that can be put into the directory. -/
def Uploadable (t : Tree Bytes Bytes) (target : List Bytes) (x : Bytes × Option Bytes) : Prop :=
  isSource x.1 → x.2.isSome ∧ t.isDir target ∧ t.isDir (target ++ [x.1]) = false

section

variable {home target : List Bytes} {remoteDir : Bytes} {t : Tree Bytes Bytes}

theorem uploadable_update {fn : Bytes} {x : Bytes × Option Bytes} (content : Bytes) (hne : x.1 ≠ fn) :
    Uploadable (Function.update t (target ++ [fn]) (some (.file content))) target x ↔
      Uploadable t target x := by
  have hdir : target ≠ target ++ [fn] := by simp
  have hfile : target ++ [x.1] ≠ target ++ [fn] := by simpa using hne
  simp only [Uploadable, Tree.isDir, Function.update_of_ne hdir, Function.update_of_ne hfile]

theorem uploadable_put {fn content : Bytes} {t' : Tree Bytes Bytes}
    (h : t.put (target ++ [fn]) content = some t') :
    t' = Function.update t (target ++ [fn]) (some (.file content)) ∧
      ∀ c, Uploadable t target (fn, some c) := by
  obtain ⟨ht', hdir, hnot⟩ := Tree.put_eq_some h
  exact ⟨ht', fun _ _ => ⟨rfl, hdir, hnot⟩⟩

theorem put_of_uploadable {fn content : Bytes} (h : Uploadable t target (fn, some content))
    (hsource : isSource fn) : t.put (target ++ [fn]) content =
      some (Function.update t (target ++ [fn]) (some (.file content))) := by
  obtain ⟨-, hdir, hnot⟩ := h hsource
  rw [Tree.put, if_pos ⟨by simp, hnot, by rwa [List.dropLast_concat]⟩]

variable {entries : List (Bytes × Option Bytes)}

theorem upload_ok
    (hplace : ∀ x ∈ entries, resolve home (rstrip remoteDir ++ 47 :: x.1) = target ++ [x.1])
    (hnodup : (entries.map Prod.fst).Nodup) (h : ∀ x ∈ entries, Uploadable t target x) :
    ∃ t', upload (treeServer home) remoteDir t entries = some t' ∧
      (∀ fn content, (fn, some content) ∈ entries → isSource fn →
        t' (target ++ [fn]) = some (.file content)) ∧
      ∀ p, (∀ x ∈ entries, isSource x.1 → p ≠ target ++ [x.1]) → t' p = t p := by
  induction entries generalizing t with
  | nil => exact ⟨t, rfl, fun _ _ hx => absurd hx List.not_mem_nil, fun _ _ => rfl⟩
  | cons x entries ih =>
    obtain ⟨fn, content⟩ := x
    obtain ⟨hnew, hnodup'⟩ := List.nodup_cons.mp hnodup
    have hrest := fun x hx => hplace x (List.mem_cons_of_mem (fn, content) hx)
    have hone := h _ List.mem_cons_self
    have hmore := fun x hx => h x (List.mem_cons_of_mem (fn, content) hx)
    by_cases hsource : isSource fn
    · obtain ⟨c, rfl⟩ := Option.isSome_iff_exists.mp (hone hsource).1
      have hne : ∀ x ∈ entries, x.1 ≠ fn := fun x hx heq => hnew (List.mem_map.mpr ⟨x, hx, heq⟩)
      obtain ⟨t', ht', hfiles, hsame⟩ := ih hrest hnodup'
        fun x hx => (uploadable_update c (hne x hx)).mpr (hmore x hx)
      refine ⟨t', ?_, ?_, ?_⟩
      · rw [upload, if_pos hsource]
        simp only [Option.bind_some, treeServer_put, hplace _ List.mem_cons_self,
          put_of_uploadable hone hsource, ht']
      · intro f d hmem hf
        rcases List.mem_cons.mp hmem with heq | hmem
        · obtain ⟨rfl, hd⟩ := Prod.mk.inj heq
          obtain rfl := Option.some.inj hd
          rw [hsame _ fun x hx _ heq => hne x hx (by simpa using heq.symm), Function.update_self]
        · exact hfiles f d hmem hf
      · intro p hp
        rw [hsame p fun x hx => hp x (List.mem_cons_of_mem _ hx),
          Function.update_of_ne (hp _ List.mem_cons_self hsource)]
    · obtain ⟨t', ht', hfiles, hsame⟩ := ih hrest hnodup' hmore
      refine ⟨t', by rw [upload, if_neg hsource, ht'], ?_, ?_⟩
      · intro f d hmem hf
        rcases List.mem_cons.mp hmem with heq | hmem
        · obtain ⟨rfl, -⟩ := Prod.mk.inj heq
          exact absurd hf hsource
        · exact hfiles f d hmem hf
      · exact fun p hp => hsame p fun x hx => hp x (List.mem_cons_of_mem _ hx)

theorem upload_valid (hvalid : t.Valid) {t' : Tree Bytes Bytes}
    (h : upload (treeServer home) remoteDir t entries = some t') : t'.Valid := by
  induction entries generalizing t with
  | nil => exact Option.some.inj h ▸ hvalid
  | cons x entries ih =>
    obtain ⟨fn, content⟩ := x
    rw [upload] at h
    split at h
    · obtain ⟨c, -, h⟩ := Option.bind_eq_some_iff.mp h
      obtain ⟨u, hput, h⟩ := Option.bind_eq_some_iff.mp h
      exact ih (hvalid.put hput) h
    · exact ih hvalid h

theorem upload_some
    (hplace : ∀ x ∈ entries, resolve home (rstrip remoteDir ++ 47 :: x.1) = target ++ [x.1])
    (hnodup : (entries.map Prod.fst).Nodup) {t' : Tree Bytes Bytes}
    (h : upload (treeServer home) remoteDir t entries = some t') : ∀ x ∈ entries, Uploadable t target x := by
  induction entries generalizing t with
  | nil => exact fun _ hx => absurd hx List.not_mem_nil
  | cons x entries ih =>
    obtain ⟨fn, content⟩ := x
    obtain ⟨hnew, hnodup'⟩ := List.nodup_cons.mp hnodup
    have hrest := fun x hx => hplace x (List.mem_cons_of_mem (fn, content) hx)
    by_cases hsource : isSource fn
    · rw [upload, if_pos hsource] at h
      simp only [treeServer_put, hplace _ List.mem_cons_self] at h
      obtain ⟨c, rfl, hbind⟩ := Option.bind_eq_some_iff.mp h
      obtain ⟨u, hput, hall⟩ := Option.bind_eq_some_iff.mp hbind
      obtain ⟨rfl, hone⟩ := uploadable_put hput
      have hne : ∀ x ∈ entries, x.1 ≠ fn := fun x hx heq => hnew (List.mem_map.mpr ⟨x, hx, heq⟩)
      intro x hx
      rcases List.mem_cons.mp hx with rfl | hx
      · exact hone c
      · exact (uploadable_update c (hne x hx)).mp (ih hrest hnodup' hall x hx)
    · rw [upload, if_neg hsource] at h
      intro x hx
      rcases List.mem_cons.mp hx with rfl | hx
      · exact fun hs => absurd hs hsource
      · exact ih hrest hnodup' h x hx

end

/-! ## The upload -/

theorem resolve_concat (home : List Bytes) (dir : Bytes) {fn : Bytes} (hfn : fn ≠ [])
    (hslash : (47 : UInt8) ∉ fn) :
    resolve home (rstrip dir ++ 47 :: fn) = uploadDir home dir ++ [fn] := by
  have hname : names fn = [fn] := by
    rw [names_name hslash]
    simp [hfn]
  have hdir : names (rstrip dir ++ [47]) = names (rstrip dir) := by
    have hempty : names [] = [] := rfl
    rw [names_append, hempty, List.append_nil]
  have hhead : (rstrip dir ++ 47 :: fn).head? = (rstrip dir ++ [47]).head? := by
    cases rstrip dir <;> rfl
  rw [uploadDir, resolve, resolve, hhead, names_append, hname, hdir]
  split
  · rfl
  · rw [List.append_assoc]

theorem uploadDir_of_root (home : List Bytes) {dir : Bytes} (h : dir.head? = some 47) :
    uploadDir home dir = names dir := by
  have hhead : (rstrip dir ++ [47]).head? = some 47 := by
    cases hrest : rstrip dir with
    | nil => rfl
    | cons b rest =>
      obtain ⟨suffix, hsuffix⟩ := List.rdropWhile_prefix (· = (47 : UInt8)) dir
      rw [← hsuffix, show dir.rdropWhile (· = (47 : UInt8)) = b :: rest from hrest] at h
      exact h
  have hempty : names [] = [] := rfl
  rw [uploadDir, resolve, if_pos hhead, names_append, hempty, List.append_nil, names_rstrip]

theorem inferModuleName_some {dir : LocalDir} {m : Bytes} (h : inferModuleName dir = some m) :
    (dir.entries.map Prod.fst).filter (fun fn => (literal ".c").isSuffixOf fn) = [m ++ literal ".c"] := by
  unfold inferModuleName at h
  split at h
  · next fn hfn =>
    have hmem : fn ∈ (dir.entries.map Prod.fst).filter fun fn => (literal ".c").isSuffixOf fn := by
      rw [hfn]
      exact List.mem_singleton_self fn
    obtain ⟨stem, hstem⟩ := List.isSuffixOf_iff_suffix.mp (List.mem_filter.mp hmem).2
    have htake : fn.take (fn.length - 2) = stem := by
      rw [← hstem, List.length_append]
      exact List.take_left
    obtain rfl : m = stem := (Option.some.inj h).symm.trans htake
    rw [hfn, hstem]
  · cases h

theorem uploadSources_tree {t : Tree Bytes Bytes} (hvalid : t.Valid) (home : List Bytes)
    (remoteDir : Bytes) (dir : LocalDir) :
    ((uploadSources (treeServer home) t remoteDir dir).isSome ↔ t.Clear (names remoteDir) ∧
      ∀ x ∈ dir.entries, Uploadable (t.withDirs (names remoteDir)) (uploadDir home remoteDir) x) ∧
    ∀ t', uploadSources (treeServer home) t remoteDir dir = some t' → t'.Valid ∧
      (∀ fn content, (fn, some content) ∈ dir.entries → isSource fn →
        t' (uploadDir home remoteDir ++ [fn]) = some (.file content)) ∧
      (∀ p, (∀ x ∈ dir.entries, isSource x.1 → p ≠ uploadDir home remoteDir ++ [x.1]) →
        t' p = t.withDirs (names remoteDir) p) ∧
      (remoteDir.head? = some 47 → uploadDir home remoteDir = names remoteDir) ∧
      ∀ m, inferModuleName dir = some m → ∃ content, (m ++ literal ".c", some content) ∈ dir.entries ∧
        t' (uploadDir home remoteDir ++ [m ++ literal ".c"]) = some (.file content) ∧
        ∀ x ∈ dir.entries, (literal ".c").isSuffixOf x.1 → x.1 = m ++ literal ".c" := by
  have hplace : ∀ x ∈ dir.entries,
      resolve home (rstrip remoteDir ++ 47 :: x.1) = uploadDir home remoteDir ++ [x.1] :=
    fun x hx => resolve_concat home remoteDir (dir.plain x hx).nonempty (dir.plain x hx).noSlash
  obtain ⟨hmake, hfail⟩ := mkdirsP_spec hvalid home remoteDir
  by_cases hclear : t.Clear (names remoteDir)
  · obtain ⟨s, hs, hfs, -⟩ := hmake hclear
    have hupload : uploadSources (treeServer home) t remoteDir dir =
        upload (treeServer home) remoteDir (t.withDirs (names remoteDir)) dir.entries := by
      rw [uploadSources, hs, Option.bind_some, hfs]
    rw [hupload]
    constructor
    · constructor
      · intro h
        obtain ⟨t', ht'⟩ := Option.isSome_iff_exists.mp h
        exact ⟨hclear, upload_some hplace dir.nodup ht'⟩
      · rintro ⟨-, h⟩
        obtain ⟨t', ht', -⟩ := upload_ok hplace dir.nodup h
        rw [ht']
        rfl
    · intro t' ht'
      have hall := upload_some hplace dir.nodup ht'
      obtain ⟨u, hu, hfiles, hsame⟩ := upload_ok hplace dir.nodup hall
      obtain rfl : u = t' := Option.some.inj (hu.symm.trans ht')
      refine ⟨upload_valid (hvalid.withDirs hclear) ht', hfiles, hsame, uploadDir_of_root home, ?_⟩
      intro m hm
      have honly := inferModuleName_some hm
      have hmem : m ++ literal ".c" ∈
          (dir.entries.map Prod.fst).filter fun fn => (literal ".c").isSuffixOf fn := by
        rw [honly]
        exact List.mem_singleton_self _
      obtain ⟨⟨fn, content⟩, hentry, rfl⟩ := List.mem_map.mp (List.mem_filter.mp hmem).1
      have hsource : isSource (m ++ literal ".c") :=
        List.any_eq_true.mpr ⟨literal ".c", by simp [srcExts], (List.mem_filter.mp hmem).2⟩
      obtain ⟨c, rfl⟩ := Option.isSome_iff_exists.mp (hall _ hentry hsource).1
      refine ⟨c, hentry, hfiles _ c hentry hsource, fun x hx hc => ?_⟩
      have hx' : x.1 ∈ (dir.entries.map Prod.fst).filter fun fn => (literal ".c").isSuffixOf fn :=
        List.mem_filter.mpr ⟨List.mem_map_of_mem hx, hc⟩
      rw [honly] at hx'
      exact List.mem_singleton.mp hx'
  · have hnone : uploadSources (treeServer home) t remoteDir dir = none := by
      rw [uploadSources, hfail hclear]
      rfl
    rw [hnone]
    exact ⟨⟨fun h => (Bool.false_ne_true h).elim, fun h => absurd h.1 hclear⟩, fun t' h => by cases h⟩

/-! ## On a server -/

theorem plain_append {a b : Bytes} : Plain (a ++ 47 :: b) ↔ Plain a ∧ Plain b := by
  simp only [Plain, names_append, List.mem_append, or_imp, forall_and]

theorem plain_of_mem_splitOn {path p : Bytes} (h : Plain path) (hp : p ∈ (strip path).splitOn 47) :
    Plain p := by
  intro n hn
  rw [names_name (Lines.sep_notMem hp), List.mem_filter, List.mem_singleton] at hn
  obtain ⟨rfl, hne⟩ := hn
  exact h n (names_strip path ▸ List.mem_filter.mpr ⟨hp, hne⟩)

section

variable {S : Sftp σ} {home : List Bytes} {view : σ → Tree Bytes Bytes}

def Mkdirs.onTree (view : σ → Tree Bytes Bytes) (s : Mkdirs σ) : Mkdirs (Tree Bytes Bytes) where
  server := view s.server
  cur := s.cur
  made := s.made

theorem mkdirsStep_cur {s s' : Mkdirs σ} {p : Bytes} (h : mkdirsStep S s p = some s') :
    s'.cur = s.cur ++ 47 :: p := by
  rw [mkdirsStep] at h
  split at h
  · exact Option.some.inj h ▸ rfl
  · obtain ⟨u, -, rfl⟩ := Option.map_eq_some_iff.mp h
    rfl

theorem mkdirsStep_serves (hS : S.Serves home view) {s : Mkdirs σ} {p : Bytes} (hcur : Plain s.cur)
    (hp : Plain p) :
    (mkdirsStep S s p).map (Mkdirs.onTree view) = mkdirsStep (treeServer home) (s.onTree view) p := by
  have hplain := plain_append.mpr ⟨hcur, hp⟩
  simp only [mkdirsStep, treeServer, Mkdirs.onTree, hS.stat _ _ hplain, ← hS.mkdir _ _ hplain]
  split
  · rfl
  · simp only [Option.map_map]
    rfl

theorem mkdirsLoop_serves (hS : S.Serves home view) {ps : List Bytes} (hps : ∀ p ∈ ps, Plain p)
    {s : Mkdirs σ} (hcur : Plain s.cur) :
    (mkdirsLoop S s ps).map (Mkdirs.onTree view) =
      mkdirsLoop (treeServer home) (s.onTree view) ps := by
  induction ps generalizing s with
  | nil => rfl
  | cons p ps ih =>
    have hp := hps p List.mem_cons_self
    rw [mkdirsLoop, mkdirsLoop, ← mkdirsStep_serves hS hcur hp]
    cases hs : mkdirsStep S s p with
    | none => rfl
    | some s' =>
      refine ih (fun r hr => hps r (List.mem_cons_of_mem p hr)) ?_
      rw [mkdirsStep_cur hs]
      exact plain_append.mpr ⟨hcur, hp⟩

theorem upload_serves (hS : S.Serves home view) {remoteDir : Bytes} (hdir : Plain (rstrip remoteDir))
    {entries : List (Bytes × Option Bytes)} (h : ∀ x ∈ entries, PlainName x.1) (s : σ) :
    (upload S remoteDir s entries).map view = upload (treeServer home) remoteDir (view s) entries := by
  induction entries generalizing s with
  | nil => rfl
  | cons x entries ih =>
    obtain ⟨fn, content⟩ := x
    have hrest := ih fun x hx => h x (List.mem_cons_of_mem (fn, content) hx)
    have hput := hS.put s (rstrip remoteDir) fn
    rw [upload, upload]
    split
    · cases content with
      | none => rfl
      | some c =>
        simp only [Option.bind_some, treeServer_put, ← hput c hdir (h _ List.mem_cons_self)]
        cases S.put s (rstrip remoteDir ++ 47 :: fn) c with
        | none => rfl
        | some u => exact hrest u
    · exact hrest s

/-- The upload to the server is the upload to its tree. -/
theorem uploadSources_serves (hS : S.Serves home view) (s : σ) {remoteDir : Bytes}
    (hplain : Plain remoteDir) (dir : LocalDir) :
    (uploadSources S s remoteDir dir).map view =
      uploadSources (treeServer home) (view s) remoteDir dir := by
  have hempty : Plain ([] : Bytes) := fun n hn => by cases hn
  have hmkdirs := mkdirsLoop_serves hS (s := ⟨s, [], []⟩)
    (fun p hp => plain_of_mem_splitOn hplain hp) hempty
  have hdir : Plain (rstrip remoteDir) := by rwa [Plain, names_rstrip]
  rw [uploadSources, uploadSources, mkdirsP, mkdirsP]
  rw [show (⟨view s, [], []⟩ : Mkdirs (Tree Bytes Bytes)) = Mkdirs.onTree view ⟨s, [], []⟩ from rfl,
    ← hmkdirs]
  cases mkdirsLoop S ⟨s, [], []⟩ ((strip remoteDir).splitOn 47) with
  | none => rfl
  | some u => exact upload_serves hS hdir dir.plain u.server

/-- On a server that keeps a tree, the upload to a path without `.` and `..` goes through if and only if
no file stands in the way of the remote directory and every source is a file that fits into it. Then the
sources are there, and beside them there is what was there, and the directories that were missing. -/
theorem uploadSources_spec (hS : S.Serves home view) (s : σ) (hvalid : (view s).Valid) (remoteDir : Bytes)
    (hplain : Plain remoteDir) (dir : LocalDir) :
    ((uploadSources S s remoteDir dir).isSome ↔ (view s).Clear (names remoteDir) ∧
      ∀ x ∈ dir.entries,
        Uploadable ((view s).withDirs (names remoteDir)) (uploadDir home remoteDir) x) ∧
    ∀ s', uploadSources S s remoteDir dir = some s' → (view s').Valid ∧
      (∀ fn content, (fn, some content) ∈ dir.entries → isSource fn →
        view s' (uploadDir home remoteDir ++ [fn]) = some (.file content)) ∧
      (∀ p, (∀ x ∈ dir.entries, isSource x.1 → p ≠ uploadDir home remoteDir ++ [x.1]) →
        view s' p = (view s).withDirs (names remoteDir) p) ∧
      (remoteDir.head? = some 47 → uploadDir home remoteDir = names remoteDir) ∧
      ∀ m, inferModuleName dir = some m → ∃ content, (m ++ literal ".c", some content) ∈ dir.entries ∧
        view s' (uploadDir home remoteDir ++ [m ++ literal ".c"]) = some (.file content) ∧
        ∀ x ∈ dir.entries, (literal ".c").isSuffixOf x.1 → x.1 = m ++ literal ".c" := by
  obtain ⟨hiff, hspec⟩ := uploadSources_tree hvalid home remoteDir dir
  rw [← uploadSources_serves hS s hplain dir] at hiff hspec
  refine ⟨by rwa [Option.isSome_map] at hiff, fun s' hs' => ?_⟩
  exact hspec (view s') (by rw [hs', Option.map_some])

end

/-- A machine with a root directory only, and two sources and a note to upload. -/
def bare : Tree Bytes Bytes := fun p => if p = [] then some .dir else none

def sample : LocalDir where
  entries := [(literal "Makefile", some (literal "all:")), (literal "hello.c", some (literal "int x;")),
    (literal "notes", none)]
  nodup := by decide
  plain := by decide

theorem uploadSources_spec_sample : ∃ t',
    uploadSources (treeServer []) bare (literal "/home/lab/") sample = some t' ∧
    t' [literal "home", literal "lab", literal "hello.c"] = some (.file (literal "int x;")) ∧
    t' [literal "home", literal "lab", literal "notes"] = none := by
  have hvalid : bare.Valid := by
    refine ⟨rfl, fun p a h => ?_⟩
    rw [bare, if_neg (by simp)] at h
    cases h
  obtain ⟨hiff, hspec⟩ := uploadSources_spec (treeServer_serves []) bare hvalid (literal "/home/lab/")
    (by decide) sample
  have hclear : bare.Clear (names (literal "/home/lab/")) := by
    intro p _ _ h
    by_cases hp : p = []
    · subst hp
      rfl
    · rw [bare, if_neg hp] at h
      cases h
  have hput : ∀ x ∈ sample.entries, Uploadable (bare.withDirs (names (literal "/home/lab/")))
      (uploadDir [] (literal "/home/lab/")) x := by
    unfold Uploadable
    decide
  obtain ⟨t', ht'⟩ := Option.isSome_iff_exists.mp (hiff.mpr ⟨hclear, hput⟩)
  obtain ⟨-, hfiles, hsame, -, -⟩ := hspec t' ht'
  exact ⟨t', ht', hfiles (literal "hello.c") _ (by decide) (by decide),
    (hsame [literal "home", literal "lab", literal "notes"] (by decide)).trans (by decide)⟩

end LinuxDriverLab.RemoteTools.DeployModule

import CallHarvest.Except
import CallHarvest.FileTree.Access
import CallHarvest.Proofs.FileTree.Kind

/-!
# Where routes lead

A route that can be followed ends at one place.  Which place that is depends on the directories and
links of the tree alone, so it stays the same while files are written and directories are added.

* `Leads` — the place at which parts end, from a directory on.
* `locateFrom_eq_ok_iff`, `leads_of_locateFileFrom` — following a route, to read or to write.
* `find_eq_ok_iff`, `exists_of_freePlace`, `leads_of_filePlace` — following a path.
* `Keeps`, `Leads.keep` — later trees, in which routes end where they did.
* `endOf`, `Leads.eq_endOf` — without links the parts alone tell where they end.
-/

namespace CallHarvest

/-! ### The place at which parts end -/

/-- Whether a part of a route is a name, which is looked up in a directory. -/
def IsName (part : String) : Prop :=
  part ≠ "." ∧ part ≠ ".." ∧ part.utf8ByteSize ≤ nameLimit

/-- Whether a route ends at what its last part leads to.  A directory is entered, and a link is
followed if `follow` says so. -/
def Ends (follow : Bool) : Option Kind → Prop
  | none => True
  | some (.file _) => True
  | some (.link _) => follow = false
  | some .dir => False

namespace FileTree

/-- The place at which parts end from a directory on, if no more than the given number of links is
followed. -/
inductive Leads (t : FileTree) (follow : Bool) : Nat → Place → List String → Place → Prop
  | stop {links : Nat} {here : Place} : t.kind? here ≠ none → Leads t follow links here [] here
  | stay {links : Nat} {here place : Place} {parts : List String} :
      Leads t follow links here parts place → Leads t follow links here ("." :: parts) place
  | up {links : Nat} {here place : Place} {parts : List String} :
      Leads t follow links here.dropLast parts place →
      Leads t follow links here (".." :: parts) place
  | enter {links : Nat} {here place : Place} {part : String} {parts : List String} :
      IsName part → t.kind? (here ++ [part]) = some .dir →
      Leads t follow links (here ++ [part]) parts place →
      Leads t follow links here (part :: parts) place
  | last {links : Nat} {here : Place} {part : String} :
      IsName part → Ends follow (t.kind? (here ++ [part])) →
      Leads t follow links here [part] (here ++ [part])
  | through {links : Nat} {here place : Place} {part target : String} {parts : List String} :
      IsName part → t.kind? (here ++ [part]) = some (.link target) →
      ¬ (parts = [] ∧ follow = false) → target ≠ "" →
      Leads t follow links (if Path.isAbsolute target then [] else here)
        ((Route.ofText target).onward parts).steps place →
      Leads t follow (links + 1) here (part :: parts) place

end FileTree

/-! ### Spots -/

namespace Spot

/-- The place that a spot is at. -/
def place : Spot → Place
  | .taken place _ => place
  | .free directory name => directory ++ [name]

/-- Whether a spot tells what is at its place in a tree. -/
def IsIn (t : FileTree) : Spot → Prop
  | .taken place n => t.get? place = some n
  | .free directory name =>
    t.kind? directory = some .dir ∧ t.kind? (directory ++ [name]) = none

/-- A spot is determined by its place. -/
theorem eq_of_place {t : FileTree} {s s' : Spot} (hs : s.IsIn t) (hs' : s'.IsIn t)
    (h : s.place = s'.place) : s = s' := by
  cases s with
  | taken place n =>
    cases s' with
    | taken place' n' =>
      obtain rfl : place = place' := h
      have hn : some n = some n' := hs.symm.trans hs'
      rw [Option.some.inj hn]
    | free directory name =>
      obtain rfl : place = directory ++ [name] := h
      have hnone := FileTree.kind?_eq_none_iff.1 hs'.2
      rw [show t.get? (directory ++ [name]) = some n from hs] at hnone
      exact nomatch hnone
  | free directory name =>
    cases s' with
    | taken place n =>
      obtain rfl : directory ++ [name] = place := h
      have hnone := FileTree.kind?_eq_none_iff.1 hs.2
      rw [show t.get? (directory ++ [name]) = some n from hs'] at hnone
      exact nomatch hnone
    | free directory' name' =>
      obtain ⟨rfl, hname⟩ := List.append_inj' (show directory ++ [name] = directory' ++ [name']
        from h) rfl
      rw [List.head_eq_of_cons_eq hname]

end Spot

namespace FileTree

variable {t t' : FileTree} {follow : Bool} {links : Nat} {here place : Place}
  {parts : List String} {part path : String} {route : Route} {spot : Spot}

/-! ### Following a route -/

/-- A walk leads to its spot, if going on along a link does, with one link less to follow. -/
theorem leads_of_walk {through : Place → Route → Except Fault Spot}
    (hthrough : ∀ here route spot, t.kind? here = some .dir → through here route = .ok spot →
      spot.IsIn t ∧ ∃ fewer, links = fewer + 1 ∧ Leads t follow fewer here route.steps spot.place)
    (hhere : t.kind? here = some .dir) (h : t.walk follow through here parts = .ok spot) :
    spot.IsIn t ∧ Leads t follow links here parts spot.place := by
  induction parts generalizing here with
  | nil =>
    obtain ⟨entries, hn⟩ := kind?_eq_dir_iff.1 hhere
    rw [walk, hn] at h
    obtain rfl := Except.ok.inj h
    refine ⟨hn, .stop ?_⟩
    rw [hhere]
    exact Option.some_ne_none _
  | cons part parts ih =>
    unfold walk at h
    by_cases hdot : part = "."
    · rw [if_pos hdot] at h
      obtain ⟨hin, hleads⟩ := ih hhere h
      exact ⟨hin, hdot ▸ .stay hleads⟩
    rw [if_neg hdot] at h
    by_cases hup : part = ".."
    · rw [if_pos hup] at h
      obtain ⟨hin, hleads⟩ := ih (kind?_dropLast hhere) h
      exact ⟨hin, hup ▸ .up hleads⟩
    rw [if_neg hup] at h
    by_cases hlong : nameLimit < part.utf8ByteSize
    · rw [if_pos hlong] at h
      exact nomatch h
    rw [if_neg hlong] at h
    have hname : IsName part := ⟨hdot, hup, Nat.le_of_not_lt hlong⟩
    cases hn : t.get? (here ++ [part]) with
    | none =>
      have hnone : t.kind? (here ++ [part]) = none := kind?_eq_none_iff.2 hn
      rw [hn] at h
      cases parts with
      | nil =>
        obtain rfl := Except.ok.inj h
        refine ⟨⟨hhere, hnone⟩, .last hname ?_⟩
        rw [hnone]
        trivial
      | cons next parts => exact nomatch h
    | some n =>
      rw [hn] at h
      cases n with
      | dir entries =>
        have hdir : t.kind? (here ++ [part]) = some .dir := kind?_eq_dir_iff.2 ⟨entries, hn⟩
        obtain ⟨hin, hleads⟩ := ih hdir h
        exact ⟨hin, .enter hname hdir hleads⟩
      | file content =>
        cases parts with
        | nil =>
          obtain rfl := Except.ok.inj h
          refine ⟨hn, .last hname ?_⟩
          rw [kind?_eq_file_iff.2 hn]
          trivial
        | cons next parts => exact nomatch h
      | link target =>
        have hlink : t.kind? (here ++ [part]) = some (.link target) := kind?_eq_link_iff.2 hn
        dsimp only at h
        by_cases hlast : parts = [] ∧ follow = false
        · rw [if_pos hlast] at h
          obtain ⟨rfl, rfl⟩ := hlast
          obtain rfl := Except.ok.inj h
          refine ⟨hn, .last hname ?_⟩
          rw [hlink]
          rfl
        rw [if_neg hlast] at h
        by_cases hempty : target = ""
        · rw [if_pos hempty] at h
          exact nomatch h
        rw [if_neg hempty] at h
        have hfrom : t.kind? (if Path.isAbsolute target then [] else here) = some .dir := by
          split
          · exact kind?_nil t
          · exact hhere
        obtain ⟨hin, fewer, rfl, hleads⟩ := hthrough _ _ _ hfrom h
        exact ⟨hin, .through hname hlink hlast hempty hleads⟩

/-- How the way goes on along a link, if no more than the given number of links is followed. -/
def beyond (t : FileTree) (follow : Bool) : Nat → Place → Route → Except Fault Spot
  | 0, _, _ => .error .tooManyLinks
  | links + 1, here, route => t.locateFrom follow links here route

theorem locateFrom_eq_walk :
    t.locateFrom follow links here route =
      t.walk follow (t.beyond follow links) here route.steps := by
  cases links <;> rfl

theorem leads_of_locateFrom (hhere : t.kind? here = some .dir)
    (h : t.locateFrom follow links here route = .ok spot) :
    spot.IsIn t ∧ Leads t follow links here route.steps spot.place := by
  induction links generalizing here route spot with
  | zero =>
    refine leads_of_walk ?_ hhere h
    intro here route spot _ hthrough
    exact nomatch hthrough
  | succ links ih =>
    refine leads_of_walk ?_ hhere h
    intro here route spot hdir hthrough
    obtain ⟨hin, hleads⟩ := ih hdir hthrough
    exact ⟨hin, links, rfl, hleads⟩

/-- A route to a file that is written does not end in a separator. -/
theorem slash_of_locateFileFrom (h : t.locateFileFrom links here route = .ok spot) :
    ¬ route.slash := by
  intro hslash
  unfold locateFileFrom at h
  rw [if_pos hslash] at h
  cases hup : t.locateFrom true links here route.parent with
  | error fault =>
    rw [hup] at h
    exact nomatch h
  | ok above =>
    rw [hup] at h
    exact nomatch h

/-- A route that is followed to write a file ends where it leads to. -/
theorem leads_of_locateFileFrom (hhere : t.kind? here = some .dir)
    (h : t.locateFileFrom links here route = .ok spot) :
    spot.IsIn t ∧ Leads t true links here route.steps spot.place := by
  induction links generalizing here route spot with
  | zero =>
    have hslash := slash_of_locateFileFrom h
    rw [locateFileFrom, if_neg hslash] at h
    rw [Route.steps, if_neg hslash, List.append_nil]
    refine leads_of_walk ?_ hhere h
    intro here route spot _ hthrough
    exact nomatch hthrough
  | succ links ih =>
    have hslash := slash_of_locateFileFrom h
    rw [locateFileFrom, if_neg hslash] at h
    rw [Route.steps, if_neg hslash, List.append_nil]
    refine leads_of_walk ?_ hhere h
    intro here route spot hdir hthrough
    obtain ⟨hin, hleads⟩ := ih hdir hthrough
    exact ⟨hin, links, rfl, hleads⟩

/-- The way can be followed to the place at which parts end. -/
theorem exists_walk_of_leads (h : Leads t follow links here parts place) :
    ∃ spot, t.walk follow (t.beyond follow links) here parts = .ok spot ∧ spot.place = place := by
  induction h with
  | @stop links here hhere =>
    obtain ⟨n, hn⟩ := Option.ne_none_iff_exists'.1 (mt kind?_eq_none_iff.2 hhere)
    refine ⟨.taken here n, ?_, rfl⟩
    rw [walk, hn]
  | stay _ ih =>
    obtain ⟨spot, hwalk, hplace⟩ := ih
    refine ⟨spot, ?_, hplace⟩
    unfold walk
    rw [if_pos rfl, hwalk]
  | up _ ih =>
    obtain ⟨spot, hwalk, hplace⟩ := ih
    refine ⟨spot, ?_, hplace⟩
    unfold walk
    rw [if_neg (by decide), if_pos rfl, hwalk]
  | enter hname hdir _ ih =>
    obtain ⟨entries, hn⟩ := kind?_eq_dir_iff.1 hdir
    obtain ⟨spot, hwalk, hplace⟩ := ih
    refine ⟨spot, ?_, hplace⟩
    unfold walk
    rw [if_neg hname.1, if_neg hname.2.1, if_neg (Nat.not_lt.2 hname.2.2), hn]
    exact hwalk
  | @last links here part hname hends =>
    unfold walk
    rw [if_neg hname.1, if_neg hname.2.1, if_neg (Nat.not_lt.2 hname.2.2)]
    rw [kind?] at hends
    cases hn : t.get? (here ++ [part]) with
    | none => exact ⟨.free here part, rfl, rfl⟩
    | some n =>
      rw [hn] at hends
      cases n with
      | file content => exact ⟨.taken (here ++ [part]) (.file content), rfl, rfl⟩
      | dir entries => exact hends.elim
      | link target =>
        have hfollow : follow = false := hends
        refine ⟨.taken (here ++ [part]) (.link target), ?_, rfl⟩
        dsimp only
        rw [if_pos ⟨rfl, hfollow⟩]
  | @through links here place part target parts hname hlink hlast hempty _ ih =>
    obtain ⟨spot, hwalk, hplace⟩ := ih
    refine ⟨spot, ?_, hplace⟩
    unfold walk
    rw [if_neg hname.1, if_neg hname.2.1, if_neg (Nat.not_lt.2 hname.2.2),
      kind?_eq_link_iff.1 hlink]
    dsimp only
    rw [if_neg hlast, if_neg hempty, beyond, locateFrom_eq_walk, hwalk]

/-- **Following a route** gives the spot at the place that it leads to. -/
theorem locateFrom_eq_ok_iff (hhere : t.kind? here = some .dir) :
    t.locateFrom follow links here route = .ok spot ↔
      spot.IsIn t ∧ Leads t follow links here route.steps spot.place := by
  constructor
  · exact leads_of_locateFrom hhere
  · rintro ⟨hin, hleads⟩
    obtain ⟨found, hwalk, hplace⟩ := exists_walk_of_leads hleads
    rw [← locateFrom_eq_walk] at hwalk
    obtain ⟨hfound, -⟩ := leads_of_locateFrom hhere hwalk
    rw [hwalk, Spot.eq_of_place hfound hin hplace]

/-! ### Following a path -/

/-- **What a path leads to.** -/
theorem find_eq_ok_iff {n : Node} :
    t.find path = .ok (place, n) ↔ t.get? place = some n ∧
      ∃ route, Route.ofPath path = .ok route ∧ Leads t true linkLimit [] route.steps place := by
  cases hroute : Route.ofPath path with
  | error fault => simp [find, hroute, bind, Except.bind]
  | ok route =>
    have htaken : t.find path = .ok (place, n) ↔
        t.locate true [] route = .ok (.taken place n) := by
      simp only [find, hroute, bind, Except.bind]
      cases t.locate true [] route with
      | error fault => simp
      | ok spot => cases spot <;> simp
    rw [htaken, locate, locateFrom_eq_ok_iff (kind?_nil t)]
    simp [Spot.IsIn, Spot.place]

/-- The file that a path leads to. -/
theorem readFile_eq_ok_iff {content : ByteArray} :
    t.readFile path = .ok content ↔ ∃ place, t.find path = .ok (place, .file content) := by
  simp only [readFile, bind, Except.bind]
  cases t.find path with
  | error fault => simp
  | ok found =>
    obtain ⟨place, n⟩ := found
    cases n <;> simp

/-- **Where a path's directory will be.**  There is nothing yet, but in a directory. -/
theorem exists_of_freePlace (h : t.freePlace path = .ok place) :
    ∃ directory name, place = directory ++ [name] ∧ t.kind? directory = some .dir ∧
      t.kind? place = none := by
  obtain ⟨route, -, h⟩ := bind_eq_ok h
  obtain ⟨spot, hspot, h⟩ := bind_eq_ok h
  obtain ⟨hin, -⟩ := leads_of_locateFrom (kind?_nil t) hspot
  cases spot with
  | taken found n => exact nomatch h
  | free directory name =>
    obtain rfl := Except.ok.inj h
    exact ⟨directory, name, rfl, hin⟩

/-- **Where a path's file is or will be.**  Nothing but a file is there, and it is in a
directory. -/
theorem leads_of_filePlace (h : t.filePlace path = .ok place) :
    (∃ route, Route.ofPath path = .ok route ∧ Leads t true linkLimit [] route.steps place) ∧
      (t.kind? place = none ∨ ∃ content, t.kind? place = some (.file content)) ∧
      ∃ directory name, place = directory ++ [name] ∧ t.kind? directory = some .dir := by
  obtain ⟨route, hroute, h⟩ := bind_eq_ok h
  obtain ⟨spot, hspot, h⟩ := bind_eq_ok h
  obtain ⟨hin, hleads⟩ := leads_of_locateFileFrom (kind?_nil t) hspot
  cases spot with
  | free directory name =>
    obtain rfl := Except.ok.inj h
    exact ⟨⟨route, hroute, hleads⟩, Or.inl hin.2, directory, name, rfl, hin.1⟩
  | taken found n =>
    cases n with
    | dir entries => exact nomatch h
    | link target => exact nomatch h
    | file content =>
      obtain rfl := Except.ok.inj h
      have hfile : t.kind? found = some (.file content) := kind?_eq_file_iff.2 hin
      refine ⟨⟨route, hroute, hleads⟩, Or.inr ⟨content, hfile⟩, ?_⟩
      rcases List.eq_nil_or_concat' found with rfl | ⟨directory, name, rfl⟩
      · exact nomatch hfile
      · refine ⟨directory, name, rfl, kind?_eq_dir_of_append ?_ (List.cons_ne_nil name [])⟩
        rw [hfile]
        exact Option.some_ne_none _

/-! ### Later trees -/

/-- Whether a later tree still has the directories and links of a tree, files where there were
files, and no other links. -/
structure Keeps (t t' : FileTree) : Prop where
  dir : ∀ place, t.kind? place = some .dir → t'.kind? place = some .dir
  file : ∀ place content, t.kind? place = some (.file content) →
    ∃ content', t'.kind? place = some (.file content')
  link : ∀ place target,
    t'.kind? place = some (.link target) ↔ t.kind? place = some (.link target)

theorem Keeps.refl (t : FileTree) : Keeps t t :=
  ⟨fun _ h => h, fun _ content h => ⟨content, h⟩, fun _ _ => Iff.rfl⟩

theorem Keeps.trans {t'' : FileTree} (h : Keeps t t') (h' : Keeps t' t'') : Keeps t t'' := by
  refine ⟨fun place hdir => h'.dir place (h.dir place hdir), ?_, ?_⟩
  · intro place content hfile
    obtain ⟨content', hfile'⟩ := h.file place content hfile
    exact h'.file place content' hfile'
  · intro place target
    exact (h'.link place target).trans (h.link place target)

/-- **In a later tree a route ends where it did.** -/
theorem Leads.keep (hkeep : Keeps t t') (h : Leads t true links here parts place) :
    Leads t' true links here parts place := by
  induction h with
  | @stop links here hhere =>
    refine .stop ?_
    cases hk : t.kind? here with
    | none => exact absurd hk hhere
    | some k =>
      cases k with
      | dir => simp [hkeep.dir here hk]
      | file content =>
        obtain ⟨content', hfile⟩ := hkeep.file here content hk
        simp [hfile]
      | link target => simp [(hkeep.link here target).2 hk]
  | stay _ ih => exact .stay ih
  | up _ ih => exact .up ih
  | enter hname hdir _ ih => exact .enter hname (hkeep.dir _ hdir) ih
  | @last links here part hname hends =>
    cases hk : t'.kind? (here ++ [part]) with
    | none =>
      refine .last hname ?_
      rw [hk]
      trivial
    | some k =>
      cases k with
      | file content =>
        refine .last hname ?_
        rw [hk]
        trivial
      | dir =>
        -- what was free is a directory now, and the route ends in it
        refine .enter hname hk (.stop ?_)
        rw [hk]
        exact Option.some_ne_none _
      | link target =>
        rw [(hkeep.link _ target).1 hk] at hends
        exact nomatch (show true = false from hends)
  | through hname hlink hlast hempty _ ih =>
    exact .through hname ((hkeep.link _ _).2 hlink) hlast hempty ih

/-! ### Trees without links -/

/-- Whether there is no link in a tree. -/
def LinkFree (t : FileTree) : Prop :=
  ∀ place target, t.kind? place ≠ some (.link target)

theorem LinkFree.keep (hfree : t.LinkFree) (hkeep : Keeps t t') : t'.LinkFree :=
  fun place target h => hfree place target ((hkeep.link place target).1 h)

/-- The place that a part leads to from a place, if there is no link. -/
def stepTo (here : Place) (part : String) : Place :=
  if part = "." then here else if part = ".." then here.dropLast else here ++ [part]

/-- The place that parts lead to from a place, if there is no link. -/
def endOf (here : Place) (parts : List String) : Place :=
  parts.foldl stepTo here

theorem stepTo_name {part : String} (here : Place) (h : part ≠ "." ∧ part ≠ "..") :
    stepTo here part = here ++ [part] := by
  rw [stepTo, if_neg h.1, if_neg h.2]

theorem endOf_append (here : Place) (parts more : List String) :
    endOf here (parts ++ more) = endOf (endOf here parts) more :=
  List.foldl_append

theorem endOf_dot (here : Place) : endOf here ["."] = here := rfl

/-- Names are added to the place. -/
theorem endOf_names (here : Place) {parts : List String}
    (h : ∀ part ∈ parts, part ≠ "." ∧ part ≠ "..") : endOf here parts = here ++ parts := by
  induction parts generalizing here with
  | nil => exact (List.append_nil here).symm
  | cons part parts ih =>
    have hrest := ih (here ++ [part]) fun part hpart => h part (List.mem_cons_of_mem _ hpart)
    rw [endOf, List.foldl_cons, stepTo_name here (h part List.mem_cons_self)]
    rw [endOf, List.append_assoc, List.singleton_append] at hrest
    exact hrest

/-- **Without links the parts tell where they end.** -/
theorem Leads.eq_endOf (hfree : t.LinkFree) (h : Leads t follow links here parts place) :
    place = endOf here parts := by
  induction h with
  | stop _ => rfl
  | stay _ ih => exact ih
  | up _ ih => exact ih
  | @enter links here place part parts hname _ _ ih =>
    rw [ih, endOf, endOf, List.foldl_cons, stepTo_name here ⟨hname.1, hname.2.1⟩]
  | @last links here part hname _ =>
    rw [endOf, List.foldl_cons, List.foldl_nil, stepTo_name here ⟨hname.1, hname.2.1⟩]
  | through _ hlink _ _ _ _ => exact absurd hlink (hfree _ _)

end FileTree

end CallHarvest

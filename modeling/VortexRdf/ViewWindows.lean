/-
Windows of a view: its rows after so many, and at most so many of them.

A window that cannot cut a row is the view as it is, found without reading one.  Any other is
served in its index's order where a plan serves the view, and a position range over base order
elsewhere; what the base does not fill falls to the appended rows.

* `VortexRdfStore.windowCheck`, `.windowedTail`, `.servedWindowOf`, `.baseWindow` — the parts;
* `VortexRdfStore.windowCutting`, `.window` — the window;
* `windowCutting_spec` — a window shows the page of the base rows, then of the appended ones.
-/
import VortexRdf.ViewCounts

namespace Views

open Ascending Buffers Builds Dictionary Indexes Masks MaskOps Terms
open EncodedSearch (FastLanes)
open Store hiding Row
open scoped Lexicographic

/-! ### Windows -/

/-- What a window's check found: that it cuts no row, or that it may, beside the live base rows
where the check counted them. -/
inductive WindowCheck where
  | cannotCut
  | mayCut (baseLive : Option ℕ)
deriving DecidableEq

/-- The matches a count counts at least. -/
def liveAtLeast : Live → ℕ
  | .exact n => n
  | .atLeast n => n

section Windows

variable {ox : Oxrdf} {V M : Type} [LinearOrder V] [TermColumn V] [MaskOps M] (fl : FastLanes)

namespace VortexRdfStore

variable (store : VortexRdfStore ox V M)

/-- The tail of a window whose base held some live rows and gave some of them. -/
def windowedTail (offset limit : ℕ) (baseLive : Live) (baseTaken : ℕ) :
    Option (Option (Tail M .default)) :=
  match store.tail with
  | some tail => (tail.window (offset - liveAtLeast baseLive) (limit - baseTaken)).map some
  | none => some none

/-- Whether a window can cut a row, known without reading one. -/
def windowCheck (offset limit : ℕ) : Option WindowCheck :=
  if offset ≠ 0 ∨ store.quads.isPendingWithoutPlan then some (.mayCut none)
  else
    let fits := fun base => decide (saturatingAdd base store.tailSize ≤ limit)
    (store.quads.baseRows fl fun selected => !fits selected).map fun base =>
      if fits base.upperBound then .cannotCut else .mayCut base.live

/-- The window of a view a plan serves, in its index's order; one that holds no base row selects
none, with no plan. -/
def servedWindowOf (view : ServedView V M) (live : LiveRows) (offset limit : ℕ) :
    Option (VortexRdfStore ox V M) :=
  match windowRows offset limit live.len with
  | some rows =>
    (live.slice rows).bind fun cut =>
      (store.windowedTail offset limit (.exact live.len) cut.len).bind fun tail =>
        (view.narrowed cut).map fun narrowed => store.derived (store.quads.narrowedTo narrowed) tail
  | none =>
    (store.windowedTail offset limit (.exact live.len) 0).map fun tail =>
      store.derived (store.quads.withSelection (.exact .empty)) tail

/-- The base's window over its exact selection, beside the live rows it holds. -/
def baseWindow (selection : RowSelection) (offset limit : ℕ) (live : Option ℕ) :
    Option (RowSelection × Live) :=
  let baseLen := store.quads.baseLen
  let live := live.getD (selection.liveLen store.quads.deleted baseLen)
  (selection.window offset limit store.quads.deleted baseLen).map fun windowed =>
    (windowed, .exact live)

/-- The base rows of a window no plan serves, beside the live rows as far as they are known: read
off the selection where it reads no more than the window, else off the exact one. -/
def windowedBase (offset limit : ℕ) (baseLive : Option ℕ) : Option (RowSelection × Live) :=
  (store.quads.selection.window fl offset limit store.quads.deleted).bind fun located =>
    match located with
    | some located => some located
    | none => (store.quads.selection.materialized fl M).bind fun selection =>
        store.baseWindow selection offset limit baseLive

/-- The window; none when it cannot cut a row. -/
def windowCutting (offset limit : ℕ) : Option (Option (VortexRdfStore ox V M)) :=
  (store.windowCheck fl offset limit).bind fun check =>
    match check with
    | .cannotCut => some none
    | .mayCut baseLive =>
      match store.quads.served with
      | some view =>
        (view.plan.live view.deleted).bind fun live =>
          (store.servedWindowOf view live offset limit).map some
      | none =>
        (store.windowedBase fl offset limit baseLive).bind fun found =>
          (store.windowedTail offset limit found.2 (found.1.len store.quads.baseLen)).map fun tail =>
            some (store.derived (store.quads.withSelection (.exact found.1)) tail)

/-- The view's rows after `offset`, at most `limit` of them. -/
def window (offset limit : ℕ) : Option (VortexRdfStore ox V M) :=
  (store.windowCutting fl offset limit).map fun cut => cut.getD store

end VortexRdfStore

end Windows

/-! ### Cuts of a view -/

section Cuts

variable {ox : Oxrdf} {V M : Type} [LinearOrder V] [TermColumn V] [Inhabited V] [MaskOps M]
  {fl : FastLanes} {finish : Finish} {store : VortexRdfStore ox V M} {ids tailIds : List RowId}

/-- A cut of a tail: the same appended rows, and those it selects. -/
structure TailCut (finish : Finish) (tail : Option (Tail M .default)) (tailIds : List RowId)
    (cut : Option (Tail M .default)) : Prop where
  kept : ∀ part ∈ cut, part.Kept finish
  same : (cut.map fun part => (part.rows, part.deleted, part.keys)) =
    tail.map fun tail => (tail.rows, tail.deleted, tail.keys)
  lists : tailListing cut = tailIds

theorem TailCut.whole (h : store.Shows fl finish ids tailIds) :
    TailCut finish store.tail tailIds store.tail := ⟨h.sound.kept, rfl, h.tail⟩

omit [Inhabited V] in
/-- The tail of a cut that leaves every appended row out. -/
theorem TailCut.nothing (h : store.Sound fl finish) :
    TailCut finish store.tail [] (store.tail.map fun tail => tail.withSelection .empty) where
  kept := by
    intro part hpart
    obtain ⟨tail, htail, rfl⟩ := Option.map_eq_some_iff.mp hpart
    exact Tail.Kept.withSelection (h.kept tail htail) within_empty
  same := by
    rw [Option.map_map]
    rfl
  lists := tailListing_empty store.tail

/-- A cut of a view: some of its base rows, and some of its appended ones. -/
theorem VortexRdfStore.Sound.cut (h : store.Sound fl finish) {selection : ViewSelection}
    {serve : Option (InMemoryServePlan V)} {tail : Option (Tail M .default)}
    (hbase : (store.quads.inMemoryWith selection serve).Shows fl store.layout ids)
    (htail : TailCut finish store.tail tailIds tail) :
    (store.derived (store.quads.inMemoryWith selection serve) tail).Shows fl finish ids tailIds ∧
      SameData store (store.derived (store.quads.inMemoryWith selection serve) tail) :=
  ⟨⟨⟨⟨h.memory.base, h.memory.built, h.memory.rids⟩, h.tombstones, htail.kept⟩, hbase, htail.lists⟩,
    rfl, rfl, rfl, htail.same⟩

/-- A listing of live rows only is its live listing. -/
theorem liveListing_of_lists {n : ℕ} {deleted : Option M} {s : RowSelection} {l : List RowId}
    (h : Lists n (some s) l) (hlive : ∀ id ∈ l, live deleted id = true) :
    s.Within n ∧ s.liveListing deleted n = l := by
  obtain ⟨hs, hlisting⟩ := listing_of_lists h
  refine ⟨hs, ?_⟩
  rw [RowSelection.liveListing, hlisting]
  exact List.filter_eq_self.mpr hlive

theorem page_of_full {α : Type*} {offset limit : ℕ} {l : List α} (h : l.length ≤ limit)
    (hoffset : offset = 0) : page offset limit l = l := by
  rw [page, hoffset, List.drop_zero, List.take_of_length_le h]

theorem page_length {α : Type*} (offset limit : ℕ) (l : List α) :
    (page offset limit l).length = min limit (l.length - offset) := by
  rw [page, List.length_take, List.length_drop]

/-- A page of two lists joined is a page of the first, then what of the second it leaves room
for. -/
theorem page_append {α : Type*} (offset limit : ℕ) (l l' : List α) :
    page offset limit (l ++ l') = page offset limit l ++
      page (offset - l.length) (limit - (page offset limit l).length) l' := by
  rw [page_length, page, page, page, List.drop_append, List.take_append, List.length_drop]
  refine congrArg (List.take limit (List.drop offset l) ++ ·) (List.take_eq_take_iff.mpr ?_)
  omega

/-! ### The window of the tail -/

theorem tail_window_spec {tail : Tail M .default} (h : tail.Kept finish) (offset limit : ℕ) :
    ∃ cut, tail.window offset limit = some (tail.withSelection cut) ∧ cut.Within tail.rows.length ∧
      tailListing (some (tail.withSelection cut)) = page offset limit (tailListing (some tail)) := by
  have hwindow : Lists tail.rows.length
      (tail.selection.window offset limit tail.deleted tail.rows.length)
        (page offset limit (tail.selection.liveListing tail.deleted tail.rows.length)) :=
    window_lists h.fits h.selected offset limit
  obtain ⟨cut, hcut, hlists⟩ := hwindow
  obtain ⟨hwithin, hlisting⟩ := liveListing_of_lists ⟨cut, rfl, hlists⟩ fun id hid =>
    (List.mem_filter.mp ((page_sublist offset limit _).subset hid)).2
  exact ⟨cut, by rw [Tail.window, hcut, Option.map_some], hwithin, hlisting⟩

/-- A window's tail is the page of the appended rows the base leaves room for; a base that
counted no further than its window leaves none. -/
theorem windowedTail_spec (h : store.Shows fl finish ids tailIds) (offset limit : ℕ) {known : Live}
    (hcounts : Live.Of ids.length known)
    (hfull : ∀ k, known = .atLeast k → limit ≤ (page offset limit ids).length) :
    ∃ tail, store.windowedTail offset limit known (page offset limit ids).length = some tail ∧
      TailCut finish store.tail
        (page (offset - ids.length) (limit - (page offset limit ids).length) tailIds) tail := by
  have hpage : page (offset - liveAtLeast known) (limit - (page offset limit ids).length) tailIds =
      page (offset - ids.length) (limit - (page offset limit ids).length) tailIds := by
    cases known with
    | exact n =>
      obtain rfl : n = ids.length := hcounts
      rfl
    | atLeast k =>
      rw [Nat.sub_eq_zero_of_le (hfull k rfl), page, page, List.take_zero, List.take_zero]
  rw [VortexRdfStore.windowedTail, ← hpage, ← h.tail]
  cases htail : store.tail with
  | none =>
    refine ⟨none, rfl, ?_, rfl, ?_⟩
    · rintro _ ⟨⟩
    · rw [tailListing, page, List.drop_nil, List.take_nil]
  | some tail =>
    have hkept := h.sound.kept tail htail
    obtain ⟨cut, hcut, hwithin, hlisting⟩ := tail_window_spec hkept (offset - liveAtLeast known)
      (limit - (page offset limit ids).length)
    dsimp only
    rw [hcut, Option.map_some]
    refine ⟨_, rfl, ?_, rfl, hlisting⟩
    intro part hpart
    obtain rfl := Option.some.inj hpart
    exact Tail.Kept.withSelection hkept hwithin

/-! ### The window of the base -/

variable [LawfulMask M]

/-- A window's check that finds no cut has every row within the limit; the live rows it counts
are the base's. -/
theorem windowCheck_spec (h : store.Shows fl finish ids tailIds) (hfits : store.FitsUsize)
    (offset limit : ℕ) : ∃ check, store.windowCheck fl offset limit = some check ∧
      (check = .cannotCut → offset = 0 ∧ ids.length + tailIds.length ≤ limit ∧
        store.quads.isPendingWithoutPlan = false) ∧
      ∀ n, check = .mayCut (some n) → n = ids.length := by
  rw [VortexRdfStore.windowCheck]
  split_ifs with hmay
  · exact ⟨_, rfl, nofun, nofun⟩
  · obtain ⟨hzero, hplan⟩ := not_or.mp hmay
    have hsize := (tailSize_eq h.sound).trans (congrArg List.length h.tail)
    obtain ⟨base, hbase, hlive, hupper, hbound⟩ := baseRows_spec h.sound h.base.reads
      fun selected => !decide (saturatingAdd selected store.tailSize ≤ limit)
    have hsum : base.upperBound + store.tailSize ≤ usizeMax := by
      rw [hsize]
      exact (Nat.add_le_add hbound (shown_le h).2).trans hfits
    dsimp only
    rw [hbase, Option.map_some]
    refine ⟨_, rfl, ?_, ?_⟩
    · intro hcannot
      split_ifs at hcannot with hfit
      rw [decide_eq_true_eq, Store.saturatingAdd] at hfit
      refine ⟨not_not.mp hzero, ?_, Bool.eq_false_iff.mpr hplan⟩
      omega
    · intro n hn
      split_ifs at hn
      exact hlive n (WindowCheck.mayCut.inj hn)

omit [LawfulMask M] in
/-- The window of a served view shows the page of its rows, in its index's order. -/
theorem servedWindowOf_spec (h : store.Shows fl finish ids tailIds) {plan : InMemoryServePlan V}
    (hserve : store.quads.memory.serve = some plan) (offset limit : ℕ) :
    ∃ view live cut, store.quads.served = some view ∧ view.plan.live view.deleted = some live ∧
      store.servedWindowOf view live offset limit = some cut ∧ SameData store cut ∧
      cut.Shows fl finish (page offset limit ids)
        (page (offset - ids.length) (limit - (page offset limit ids).length) tailIds) ∧
      cut.quads.isPendingWithoutPlan = false := by
  obtain ⟨family, places, view, hview, rfl, hdeleted, hnames, rfl⟩ := h.base.reads.served hserve
  obtain ⟨live, hlive, hlists⟩ := hnames.covers.live_spec
  have hlen := hlists.len_eq
  have hsmall : places.length ≤ usizeMax := by
    have hshown := (shown_le h).1
    rw [List.length_map] at hshown
    exact hshown.trans h.sound.memory.base.small
  have hcounts : Live.Of (places.map ((IndexChild.copy family).ridAt
      store.quads.memory.base.rows)).length (.exact live.len) := by
    rw [List.length_map]
    exact hlen
  obtain ⟨tail, htail, hcut⟩ := windowedTail_spec h offset limit hcounts nofun
  have hpage : page offset limit (places.map ((IndexChild.copy family).ridAt
      store.quads.memory.base.rows)) = (page offset limit places).map
        ((IndexChild.copy family).ridAt store.quads.memory.base.rows) := by
    rw [page, page, List.map_take, List.map_drop]
  rw [hpage] at htail hcut ⊢
  refine ⟨view, live, ?_⟩
  rw [VortexRdfStore.servedWindowOf, hlen]
  cases hrows : windowRows offset limit places.length with
  | some rows =>
    obtain ⟨hwithin, hslice⟩ := windowRows_some hsmall hrows
    obtain ⟨part, hpart, hpartLists⟩ := hlists.slice_spec hnames.covers.ascending hwithin
    rw [hslice] at hpartLists
    have hpartLen : part.len = (page offset limit places).length := hpartLists.len_eq
    have hne : page offset limit places ≠ [] := by
      intro hempty
      rw [windowRows] at hrows
      split_ifs at hrows with hlt
      have := congrArg List.length hempty
      rw [page_length, List.length_nil, Store.saturatingAdd] at *
      omega
    obtain ⟨narrowed, hnarrowed, hshown, -⟩ := narrowed_shows hnames hdeleted
      (h.base.declared view.plan hserve) (page_sublist offset limit places) hne hpartLists
    rw [List.length_map, hlen] at htail
    obtain ⟨hshows, hsame⟩ := h.sound.cut hshown hcut
    refine ⟨_, hview, hlive, ?_, hsame, hshows, store.quads.narrowedTo_served narrowed⟩
    dsimp only
    rw [hpart, Option.bind_some, hpartLen, htail, Option.bind_some, hnarrowed, Option.map_some]
    rfl
  | none =>
    have hempty : page offset limit places = [] := windowRows_none hsmall hrows
    rw [hempty, List.map_nil, List.length_nil] at htail hcut ⊢
    rw [hlen] at htail
    have hnothing : RowSelection.empty.Within store.quads.baseLen := within_empty
    obtain ⟨hshows, hsame⟩ := h.sound.cut (.exact hnothing) hcut
    rw [liveListing_empty] at hshows
    refine ⟨_, hview, hlive, ?_, hsame, hshows, rfl⟩
    dsimp only
    rw [htail, Option.map_some]
    rfl

/-- The window of a view's exact or pending selection is of its live rows, beside what is known
of them. -/
theorem windowedBase_spec (h : store.Shows fl finish ids tailIds)
    (hserve : store.quads.memory.serve = none) (offset limit : ℕ) {baseLive : Option ℕ}
    (hlive : ∀ n, baseLive = some n → n = ids.length) :
    ∃ s known, store.windowedBase fl offset limit baseLive = some (s, known) ∧
      Windowed store.quads.baseLen offset limit ids s known := by
  have hyields := h.base.reads.plain hserve
  have hsmall : store.quads.baseLen ≤ usizeMax := h.sound.memory.base.small
  obtain ⟨located, hlocated, hwindowed⟩ :=
    hyields.window_spec hsmall h.sound.tombstones offset limit
  rw [VortexRdfStore.windowedBase, hlocated, Option.bind_some]
  cases located with
  | some located => exact ⟨located.1, located.2, rfl, hwindowed _ _ rfl⟩
  | none =>
    obtain ⟨selection, hselection, hwithin, hlisting⟩ := hyields.materialized_spec
    have hwindow : Lists store.quads.baseLen (selection.window offset limit store.quads.deleted
        store.quads.baseLen) (page offset limit (selection.liveListing store.quads.deleted
          store.quads.baseLen)) := window_lists hsmall hwithin offset limit
    rw [hlisting] at hwindow
    obtain ⟨s, hs, hlists⟩ := hwindow
    have hknown : baseLive.getD (selection.liveLen store.quads.deleted store.quads.baseLen) =
        ids.length := by
      cases hcounted : baseLive with
      | some n => exact hlive n hcounted
      | none =>
        rw [Option.getD_none, length_liveListing hsmall hwithin h.sound.tombstones, hlisting]
    refine ⟨s, .exact ids.length, ?_, ⟨s, rfl, hlists⟩, rfl, fun k hk => ?_⟩
    · dsimp only
      rw [hselection, Option.bind_some, VortexRdfStore.baseWindow, hknown, hs, Option.map_some]
    · cases hk

/-- **A window**: none where it cuts no row, and else, over the same data, the page of the base
rows in the order they read in, then of the appended rows what the base leaves room for. -/
theorem windowCutting_spec (h : store.Shows fl finish ids tailIds) (hfits : store.FitsUsize)
    (offset limit : ℕ) : ∃ outcome, store.windowCutting fl offset limit = some outcome ∧
      (outcome = none → offset = 0 ∧ ids.length + tailIds.length ≤ limit ∧
        store.quads.isPendingWithoutPlan = false) ∧
      ∀ cut, outcome = some cut → SameData store cut ∧
        cut.Shows fl finish (page offset limit ids)
          (page (offset - ids.length) (limit - (page offset limit ids).length) tailIds) ∧
        cut.quads.isPendingWithoutPlan = false := by
  obtain ⟨check, hcheck, hcannot, hmay⟩ := windowCheck_spec h hfits offset limit
  rw [VortexRdfStore.windowCutting, hcheck, Option.bind_some]
  cases check with
  | cannotCut =>
    refine ⟨none, rfl, fun _ => hcannot rfl, fun cut hcut => ?_⟩
    cases hcut
  | mayCut baseLive =>
    dsimp only
    cases hserve : store.quads.memory.serve with
    | some plan =>
      obtain ⟨view, live, cut, hview, hlive, hcut, hsame, hshows, hread⟩ :=
        servedWindowOf_spec h hserve offset limit
      rw [hview]
      dsimp only
      rw [hlive, Option.bind_some, hcut, Option.map_some]
      refine ⟨_, rfl, fun hnone => (Option.some_ne_none _ hnone).elim, fun found hfound => ?_⟩
      obtain rfl := Option.some.inj hfound
      exact ⟨hsame, hshows, hread⟩
    | none =>
      have hserved : store.quads.served = none := by rw [QuadsSource.served, hserve]
      obtain ⟨s, known, hfound, hwindowed⟩ := windowedBase_spec h hserve offset limit fun n hn =>
        hmay n (congrArg WindowCheck.mayCut hn)
      have hlists := hwindowed.lists
      obtain ⟨hs, hlisting⟩ := liveListing_of_lists hlists fun id hid =>
        h.base.reads.live_of_mem ((page_sublist offset limit ids).subset hid)
      have hlen : s.len store.quads.baseLen = (page offset limit ids).length := by
        have hcard : s.len store.quads.baseLen = (s.rows store.quads.baseLen).card :=
          len_eq_card h.sound.memory.base.small hs
        rw [hcard, ← (listing_of_lists hlists).2, RowSelection.listing, Finset.length_sort]
      obtain ⟨tail, htail, hcut⟩ :=
        windowedTail_spec h offset limit hwindowed.counts hwindowed.full
      obtain ⟨hshows, hsame⟩ := h.sound.cut (.exact hs) hcut
      rw [hlisting] at hshows
      rw [hserved]
      dsimp only
      rw [hfound, Option.bind_some, hlen, htail, Option.map_some]
      refine ⟨_, rfl, fun hnone => (Option.some_ne_none _ hnone).elim, fun found hsome => ?_⟩
      obtain rfl := Option.some.inj hsome
      exact ⟨hsame, hshows, rfl⟩

/-- A window shows its page of the rows the view shows. -/
theorem window_spec (h : store.Shows fl finish ids tailIds) (hfits : store.FitsUsize)
    (offset limit : ℕ) : ∃ view, store.window fl offset limit = some view ∧ SameData store view ∧
      view.Shows fl finish (page offset limit ids)
        (page (offset - ids.length) (limit - (page offset limit ids).length) tailIds) ∧
      view.quads.isPendingWithoutPlan = false := by
  obtain ⟨outcome, houtcome, hwhole, hcut⟩ := windowCutting_spec h hfits offset limit
  rw [VortexRdfStore.window, houtcome, Option.map_some]
  refine ⟨_, rfl, ?_⟩
  cases outcome with
  | some cut => exact hcut cut rfl
  | none =>
    obtain ⟨rfl, hle, hread⟩ := hwhole rfl
    have hbase : page 0 limit ids = ids := page_of_full (by omega) rfl
    have htail : page (0 - ids.length) (limit - ids.length) tailIds = tailIds :=
      page_of_full (by omega) (Nat.zero_sub _)
    rw [hbase, htail]
    exact ⟨.refl store, h, hread⟩

end Cuts

end Views

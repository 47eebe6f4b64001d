import Topograph.Lib.GoMap

/-! # Host names of adapters (`pkg/ib/ib.go`)

`resolveNodeNames` maps the host names that adapters report to cluster nodes. A name that is a node
name is kept; another one goes to the only node with its short name, unless an adapter with another
name goes there as well. Which texts are IP addresses is `net.ParseIP`'s business, and a parameter
here; warnings are left out.

The first loop collects, for each node, the names of the adapters that match it
(`mem_reported_iff`); so the result is described by the two maps as sets of entries
(`lookup_resolveNodeNames`), whatever the order in which they are listed. -/

namespace Topograph.Ib

section Resolve

variable (parseIP : String → Bool)

/-- `shortHostName`. -/
def shortHostName (name : String) : String :=
  if parseIP name then name else String.ofList (name.toList.takeWhile (· ≠ '.'))

/-- `isShortHostName`. -/
def isShortHostName (name : String) : Bool := shortHostName parseIP name = name

/-- The nodes by their short names. -/
def nodesByShortName (nodesInCluster : GoMap String Bool) : GoMap String (List String) :=
  nodesInCluster.keys.foldl
    (fun byShortName node =>
      byShortName.insert (shortHostName parseIP node)
        ((byShortName.lookup (shortHostName parseIP node)).getD [] ++ [node])) ∅

/-- `addReported`. -/
def addReported (reported : GoMap String (GoMap String Bool)) (node name : String) :
    GoMap String (GoMap String Bool) :=
  reported.insert node (((reported.lookup node).getD ∅).insert name true)

/-- The maps of `resolveNodeNames`: the names to be returned, for each node the names reported for
it, and the nodes found by short name. -/
structure ResolveState where
  resolved : GoMap String String
  reported : GoMap String (GoMap String Bool)
  fallback : GoMap String String

variable (nodesInCluster : GoMap String Bool)

/-- The nodes with the short name of `name`, if one of the two names is short. -/
def candidates (byShortName : GoMap String (List String)) (name : String) : List String :=
  ((byShortName.lookup (shortHostName parseIP name)).getD []).filter fun node =>
    isShortHostName parseIP name || isShortHostName parseIP node

/-- One adapter of the first loop. -/
def resolveAdapter (st : ResolveState) (e : Σ _ : String, String) : ResolveState :=
  let resolved := st.resolved.insert e.1 e.2
  if (nodesInCluster.lookup e.2).getD false then
    { st with resolved := resolved, reported := addReported st.reported e.2 e.2 }
  else
    match candidates parseIP (nodesByShortName parseIP nodesInCluster) e.2 with
    | [node] =>
      { resolved := resolved
        reported := addReported st.reported node e.2
        fallback := st.fallback.insert e.1 node }
    | _ => { st with resolved := resolved }

/-- `resolveNodeNames`. -/
def resolveNodeNames (hca : GoMap String String) : GoMap String String :=
  let st := hca.entries.foldl (resolveAdapter parseIP nodesInCluster)
    { resolved := ∅, reported := ∅, fallback := ∅ }
  st.fallback.entries.foldl
    (fun resolved e =>
      if 1 < ((st.reported.lookup e.2).getD ∅).entries.length then resolved
        else resolved.insert e.1 e.2) st.resolved

/-! ## What a name matches -/

/-- The two names have the same short name, and one of them is short. -/
def SameHost (name node : String) : Prop :=
  shortHostName parseIP node = shortHostName parseIP name ∧
    (isShortHostName parseIP name ∨ isShortHostName parseIP node)

/-- The node is the only one with the short name. -/
def UniqueFallback (name node : String) : Prop :=
  node ∈ nodesInCluster ∧ SameHost parseIP name node ∧
    ∀ other ∈ nodesInCluster, SameHost parseIP name other → other = node

/-- The name is the node's, or the node is the only one with its short name. -/
def MatchesNode (name node : String) : Prop :=
  (name ∈ nodesInCluster ∧ name = node) ∨
    (name ∉ nodesInCluster ∧ UniqueFallback parseIP nodesInCluster name node)

variable {parseIP nodesInCluster}

/-- The nodes with a given short name. -/
theorem lookup_nodesByShortName (short : String) :
    ((nodesByShortName parseIP nodesInCluster).lookup short).getD [] =
      nodesInCluster.keys.filter fun node => shortHostName parseIP node = short := by
  have hrun : ∀ (nodes : List String) (m : GoMap String (List String)),
      ((nodes.foldl (fun byShortName node =>
        byShortName.insert (shortHostName parseIP node)
          ((byShortName.lookup (shortHostName parseIP node)).getD [] ++ [node])) m).lookup
          short).getD [] = (m.lookup short).getD [] ++ nodes.filter fun node =>
            shortHostName parseIP node = short := by
    intro nodes
    induction nodes with
    | nil => simp
    | cons node nodes ih =>
      intro m
      rw [List.foldl_cons, ih, GoMap.lookup_insert_eq_ite]
      by_cases hshort : short = shortHostName parseIP node
      · subst hshort
        simp
      · have hne : shortHostName parseIP node ≠ short := fun h => hshort h.symm
        simp [hshort, hne]
  rw [nodesByShortName, hrun]
  rfl

/-- One candidate is the only node with the short name. -/
theorem candidates_eq_singleton_iff {name node : String} :
    candidates parseIP (nodesByShortName parseIP nodesInCluster) name = [node] ↔
      UniqueFallback parseIP nodesInCluster name node := by
  have hmem : ∀ other, other ∈ candidates parseIP (nodesByShortName parseIP nodesInCluster) name ↔
      other ∈ nodesInCluster ∧ SameHost parseIP name other := by
    intro other
    rw [candidates, lookup_nodesByShortName, List.mem_filter, List.mem_filter, SameHost,
      ← AList.mem_keys]
    simp [and_assoc]
  have hnodup : (candidates parseIP (nodesByShortName parseIP nodesInCluster) name).Nodup := by
    rw [candidates, lookup_nodesByShortName]
    exact (nodesInCluster.nodupKeys.filter _).filter _
  constructor
  · intro h
    rw [h] at hmem
    obtain ⟨hnode, hsame⟩ := (hmem node).mp (List.mem_singleton_self node)
    exact ⟨hnode, hsame, fun other hother hsame' =>
      List.mem_singleton.mp ((hmem other).mpr ⟨hother, hsame'⟩)⟩
  · rintro ⟨hnode, hsame, honly⟩
    have hall : ∀ other ∈ candidates parseIP (nodesByShortName parseIP nodesInCluster) name,
        other = node :=
      fun other hother => honly other ((hmem other).mp hother).1 ((hmem other).mp hother).2
    refine List.perm_singleton.mp
      ((List.perm_ext_iff_of_nodup hnodup (List.nodup_singleton node)).mpr fun other => ?_)
    rw [List.mem_singleton]
    constructor
    · exact hall other
    · rintro rfl
      exact (hmem other).mpr ⟨hnode, hsame⟩

/-! ## The first loop -/

/-- The cluster nodes are a set. -/
def IsSet (nodesInCluster : GoMap String Bool) : Prop :=
  ∀ node present, nodesInCluster.lookup node = some present → present = true

theorem mem_iff_lookup_getD (hset : IsSet nodesInCluster) {name : String} :
    (nodesInCluster.lookup name).getD false = true ↔ name ∈ nodesInCluster := by
  rw [GoMap.mem_iff_lookup]
  cases hlook : nodesInCluster.lookup name with
  | none => simp
  | some present => simp [hset name present hlook]

variable (parseIP nodesInCluster) in
/-- The node that is found by short name. -/
def fallbackOf (name : String) : Option String :=
  if (nodesInCluster.lookup name).getD false then none
  else
    match candidates parseIP (nodesByShortName parseIP nodesInCluster) name with
    | [node] => some node
    | _ => none

variable (parseIP nodesInCluster) in
/-- The node that a name is reported for. -/
def matchOf (name : String) : Option String :=
  if (nodesInCluster.lookup name).getD false then some name
    else fallbackOf parseIP nodesInCluster name

/-- The fallback is the only node with the short name. -/
theorem fallbackOf_eq_some_iff (hset : IsSet nodesInCluster) {name node : String} :
    fallbackOf parseIP nodesInCluster name = some node ↔
      name ∉ nodesInCluster ∧ UniqueFallback parseIP nodesInCluster name node := by
  rw [fallbackOf, ← candidates_eq_singleton_iff, ← mem_iff_lookup_getD hset]
  by_cases hexact : (nodesInCluster.lookup name).getD false = true
  · simp [hexact]
  · simp only [hexact]
    match candidates parseIP (nodesByShortName parseIP nodesInCluster) name with
    | [] => simp
    | [other] => simp
    | other :: other' :: others => simp

/-- A reported name matches its node or its fallback. -/
theorem matchOf_eq_some_iff (hset : IsSet nodesInCluster) {name node : String} :
    matchOf parseIP nodesInCluster name = some node ↔
      MatchesNode parseIP nodesInCluster name node := by
  rw [matchOf, MatchesNode]
  by_cases hexact : name ∈ nodesInCluster
  · simp [(mem_iff_lookup_getD hset).mpr hexact, hexact]
  · rw [if_neg (mt (mem_iff_lookup_getD hset).mp hexact), fallbackOf_eq_some_iff hset]
    simp [hexact]

/-- **One adapter**, map by map. -/
theorem resolveAdapter_eq (st : ResolveState) (e : Σ _ : String, String) :
    resolveAdapter parseIP nodesInCluster st e =
      { resolved := st.resolved.insert e.1 e.2
        reported := (matchOf parseIP nodesInCluster e.2).elim st.reported fun node =>
          addReported st.reported node e.2
        fallback := (fallbackOf parseIP nodesInCluster e.2).elim st.fallback
          (st.fallback.insert e.1) } := by
  rw [resolveAdapter, matchOf, fallbackOf]
  by_cases hexact : (nodesInCluster.lookup e.2).getD false = true
  · simp [hexact]
  · simp only [hexact]
    match candidates parseIP (nodesByShortName parseIP nodesInCluster) e.2 with
    | [] => rfl
    | [other] => rfl
    | other :: other' :: others => rfl

/-- **The first loop**, map by map. -/
theorem foldl_resolveAdapter (l : List (Σ _ : String, String)) (st : ResolveState) :
    l.foldl (resolveAdapter parseIP nodesInCluster) st =
      { resolved := l.foldl (fun m e => m.insert e.1 e.2) st.resolved
        reported :=
          l.foldl (fun m e => (matchOf parseIP nodesInCluster e.2).elim m fun node =>
            addReported m node e.2) st.reported
        fallback := l.foldl (fun m e => (fallbackOf parseIP nodesInCluster e.2).elim m
          (m.insert e.1)) st.fallback } := by
  induction l generalizing st with
  | nil => rfl
  | cons e l ih =>
    rw [List.foldl_cons, ih, resolveAdapter_eq, List.foldl_cons, List.foldl_cons, List.foldl_cons]

/-- The names that are reported for a node. -/
theorem mem_addReported {reported : GoMap String (GoMap String Bool)}
    {node name node' name' : String} :
    name' ∈ ((addReported reported node name).lookup node').getD ∅ ↔
      (node' = node ∧ name' = name) ∨ name' ∈ (reported.lookup node').getD ∅ := by
  rw [addReported, GoMap.lookup_insert_eq_ite]
  by_cases hnode : node' = node
  · subst hnode
    simp [AList.mem_insert]
  · simp [hnode]

/-- **The names that are reported for a node** are those of the adapters that match it. -/
theorem mem_reported_iff (hset : IsSet nodesInCluster) (l : List (Σ _ : String, String))
    (node name : String) :
    name ∈ ((l.foldl (fun m e => (matchOf parseIP nodesInCluster e.2).elim m fun node =>
      addReported m node e.2)
        (∅ : GoMap String (GoMap String Bool))).lookup node).getD ∅ ↔
      MatchesNode parseIP nodesInCluster name node ∧ ∃ e ∈ l, e.2 = name := by
  have hrun : ∀ m : GoMap String (GoMap String Bool),
      name ∈ ((l.foldl (fun m e => (matchOf parseIP nodesInCluster e.2).elim m fun node =>
        addReported m node e.2) m).lookup
        node).getD ∅ ↔ name ∈ (m.lookup node).getD ∅ ∨
          (MatchesNode parseIP nodesInCluster name node ∧ ∃ e ∈ l, e.2 = name) := by
    induction l with
    | nil => simp
    | cons e l ih =>
      intro m
      rw [List.foldl_cons, ih, List.exists_mem_cons_iff]
      cases hmatch : matchOf parseIP nodesInCluster e.2 with
      | none =>
        have hno : e.2 = name → ¬ MatchesNode parseIP nodesInCluster name node := by
          rintro rfl h
          rw [(matchOf_eq_some_iff hset).mpr h] at hmatch
          exact absurd hmatch (by simp)
        rw [Option.elim_none]
        tauto
      | some other =>
        have hother : e.2 = name → (MatchesNode parseIP nodesInCluster name node ↔
            node = other) := by
          rintro rfl
          rw [← matchOf_eq_some_iff hset, hmatch, Option.some_inj, eq_comm]
        rw [Option.elim_some, mem_addReported]
        constructor
        · rintro ((⟨rfl, rfl⟩ | h) | h)
          · exact Or.inr ⟨(hother rfl).mpr rfl, Or.inl rfl⟩
          · exact Or.inl h
          · exact Or.inr ⟨h.1, Or.inr h.2⟩
        · rintro (h | ⟨h, heq | hl⟩)
          · exact Or.inl (Or.inr h)
          · exact Or.inl (Or.inl ⟨(hother heq).mp h, heq.symm⟩)
          · exact Or.inr ⟨h, hl⟩
  rw [hrun]
  simp

/-! ## The result -/

variable (parseIP nodesInCluster) in
/-- An adapter with another name matches the node as well. -/
def Contested (hca : GoMap String String) (name node : String) : Prop :=
  ∃ id' name', hca.lookup id' = some name' ∧ name' ≠ name ∧
    MatchesNode parseIP nodesInCluster name' node

variable {hca : GoMap String String} {id name : String}

/-- The two loops together. -/
theorem lookup_resolveNodeNames_eq (id : String) :
    (resolveNodeNames parseIP nodesInCluster hca).lookup id =
      (hca.lookup id).bind fun name => (fallbackOf parseIP nodesInCluster name).elim
        (some name) fun node =>
        if 1 < (((hca.entries.foldl (fun m e => (matchOf parseIP nodesInCluster e.2).elim m
          fun node => addReported m node e.2)
          (∅ : GoMap String (GoMap String Bool))).lookup node).getD ∅).entries.length then some name
            else some node := by
  rw [resolveNodeNames, foldl_resolveAdapter]
  dsimp only
  rw [GoMap.lookup_foldl_entries (f := fun _ node old => if 1 < (((hca.entries.foldl
      (fun m e => (matchOf parseIP nodesInCluster e.2).elim m fun node => addReported m node e.2)
        (∅ : GoMap String (GoMap String Bool))).lookup node).getD ∅).entries.length then old
          else some node),
    GoMap.lookup_foldl_entries (f := fun _ name old =>
      (fallbackOf parseIP nodesInCluster name).elim old some),
    GoMap.lookup_foldl_entries (f := fun _ name _ => some name), AList.lookup_empty]
  · cases hca.lookup id with
    | none => rfl
    | some name => cases hfall : fallbackOf parseIP nodesInCluster name <;> simp [hfall]
  · exact fun m e a => GoMap.lookup_insert_eq_ite m e.1 a e.2
  · intro m e a
    cases fallbackOf parseIP nodesInCluster e.2 with
    | none =>
      rw [Option.elim_none, Option.elim_none]
      split_ifs with ha
      · rw [ha]
      · rfl
    | some node => exact GoMap.lookup_insert_eq_ite m e.1 a node
  · intro m e a
    split_ifs with hlt ha ha
    · rw [ha]
    · rfl
    · rw [ha, AList.lookup_insert]
    · exact AList.lookup_insert_ne ha

variable (parseIP) in
/-- **Where an adapter goes**: to the node of its short name if no adapter with another name matches
it, or nowhere. -/
theorem lookup_resolveNodeNames (hset : IsSet nodesInCluster) (h : hca.lookup id = some name) :
    (∃ node, name ∉ nodesInCluster ∧ UniqueFallback parseIP nodesInCluster name node ∧
        ¬ Contested parseIP nodesInCluster hca name node ∧
        (resolveNodeNames parseIP nodesInCluster hca).lookup id = some node) ∨
      ((∀ node, name ∉ nodesInCluster → UniqueFallback parseIP nodesInCluster name node →
          Contested parseIP nodesInCluster hca name node) ∧
        (resolveNodeNames parseIP nodesInCluster hca).lookup id = some name) := by
  rw [lookup_resolveNodeNames_eq, h, Option.bind_some]
  cases hfall : fallbackOf parseIP nodesInCluster name with
  | none =>
    refine Or.inr ⟨fun node hname hunique => ?_, rfl⟩
    rw [(fallbackOf_eq_some_iff hset).mpr ⟨hname, hunique⟩] at hfall
    exact absurd hfall (by simp)
  | some node =>
    obtain ⟨hname, hunique⟩ := (fallbackOf_eq_some_iff hset).mp hfall
    have hown : ∃ e ∈ hca.entries, e.2 = name := ⟨_, GoMap.lookup_eq_some_iff.mp h, rfl⟩
    -- The node has another reported name exactly if it is contested.
    have hcontested := GoMap.one_lt_length_iff
      ((mem_reported_iff hset hca.entries node name).mpr ⟨Or.inr ⟨hname, hunique⟩, hown⟩)
    rw [Option.elim_some]
    split_ifs with hlt
    · obtain ⟨name', hname', hne⟩ := hcontested.mp hlt
      obtain ⟨hmatch, e, he, rfl⟩ := (mem_reported_iff hset hca.entries node name').mp hname'
      refine Or.inr ⟨fun other _ hother => ?_, rfl⟩
      rw [hunique.2.2 other hother.1 hother.2.1]
      exact ⟨e.1, e.2, GoMap.lookup_eq_some_iff.mpr he, hne, hmatch⟩
    · refine Or.inl ⟨node, hname, hunique, ?_, rfl⟩
      rintro ⟨id', name', hlook, hne, hmatch⟩
      exact hlt (hcontested.mpr ⟨name', (mem_reported_iff hset hca.entries node name').mpr
        ⟨hmatch, _, GoMap.lookup_eq_some_iff.mp hlook, rfl⟩, hne⟩)

/-- **An adapter without an exact match** goes to a node exactly if it is the only one with the
short name, and not contested. -/
theorem lookup_eq_some_node_iff (hset : IsSet nodesInCluster) (h : hca.lookup id = some name)
    (hname : name ∉ nodesInCluster) {node : String} (hnode : node ∈ nodesInCluster) :
    (resolveNodeNames parseIP nodesInCluster hca).lookup id = some node ↔
      UniqueFallback parseIP nodesInCluster name node ∧
      ¬ Contested parseIP nodesInCluster hca name node := by
  rcases lookup_resolveNodeNames parseIP hset h with ⟨other, -, hunique, hfree,
    hlook⟩ | ⟨hcontested, hlook⟩
  · rw [hlook, Option.some_inj]
    constructor
    · rintro rfl
      exact ⟨hunique, hfree⟩
    · rintro ⟨hunique', -⟩
      exact hunique'.2.2 other hunique.1 hunique.2.1
  · rw [hlook, Option.some_inj]
    constructor
    · rintro rfl
      exact absurd hnode hname
    · rintro ⟨hunique, hfree⟩
      exact absurd (hcontested node hname hunique) hfree

/-- An adapter that goes to a node matches it, and no adapter with another name does. -/
theorem matches_of_lookup (hset : IsSet nodesInCluster) (h : hca.lookup id = some name)
    {node : String} (hnode : node ∈ nodesInCluster)
    (hlook : (resolveNodeNames parseIP nodesInCluster hca).lookup id = some node) :
    MatchesNode parseIP nodesInCluster name node ∧
      (name ∉ nodesInCluster → ¬ Contested parseIP nodesInCluster hca name node) := by
  by_cases hname : name ∈ nodesInCluster
  · rcases lookup_resolveNodeNames parseIP hset h with ⟨other, hnot, -⟩ | ⟨-, hlook'⟩
    · exact absurd hname hnot
    · exact ⟨Or.inl ⟨hname, Option.some.inj (hlook'.symm.trans hlook)⟩,
        fun hnot => absurd hname hnot⟩
  · obtain ⟨hunique, hfree⟩ := (lookup_eq_some_node_iff hset h hname hnode).mp hlook
    exact ⟨Or.inr ⟨hname, hunique⟩, fun _ => hfree⟩

theorem exists_of_lookup_resolveNodeNames {node : String}
    (h : (resolveNodeNames parseIP nodesInCluster hca).lookup id = some node) :
    ∃ name, hca.lookup id = some name := by
  rw [lookup_resolveNodeNames_eq] at h
  obtain ⟨name, hname, -⟩ := Option.bind_eq_some_iff.mp h
  exact ⟨name, hname⟩

/-- Two adapters on one node have one name. -/
theorem lookup_eq_of_same_node (hset : IsSet nodesInCluster) {id' node : String}
    (hnode : node ∈ nodesInCluster)
    (h : (resolveNodeNames parseIP nodesInCluster hca).lookup id = some node)
    (h' : (resolveNodeNames parseIP nodesInCluster hca).lookup id' = some node) :
    hca.lookup id = hca.lookup id' := by
  obtain ⟨name, hname⟩ := exists_of_lookup_resolveNodeNames h
  obtain ⟨name', hname'⟩ := exists_of_lookup_resolveNodeNames h'
  obtain ⟨hmatch, hfree⟩ := matches_of_lookup hset hname hnode h
  obtain ⟨hmatch', hfree'⟩ := matches_of_lookup hset hname' hnode h'
  rw [hname, hname', Option.some_inj]
  by_contra hne
  -- One of the two names is not the node's own, and the other one contests it.
  by_cases hin : name ∈ nodesInCluster
  · by_cases hin' : name' ∈ nodesInCluster
    · have heq : name = node := hmatch.elim (·.2) fun h => absurd hin h.1
      have heq' : name' = node := hmatch'.elim (·.2) fun h => absurd hin' h.1
      exact hne (heq.trans heq'.symm)
    · exact hfree' hin' ⟨id, name, hname, hne, hmatch⟩
  · exact hfree hin ⟨id', name', hname', fun h => hne h.symm, hmatch'⟩

/-- The order in which the two maps are listed does not matter. -/
theorem lookup_resolveNodeNames_congr (hset : IsSet nodesInCluster) {hca' : GoMap String String}
    {nodes' : GoMap String Bool} (hhca : ∀ id, hca'.lookup id = hca.lookup id)
    (hnodes : ∀ node, nodes'.lookup node = nodesInCluster.lookup node) (id : String) :
    (resolveNodeNames parseIP nodes' hca').lookup id =
      (resolveNodeNames parseIP nodesInCluster hca).lookup id := by
  have hset' : IsSet nodes' := fun node present h => hset node present ((hnodes node).symm.trans h)
  have hmem : ∀ node, node ∈ nodes' ↔ node ∈ nodesInCluster := by
    intro node
    rw [GoMap.mem_iff_lookup, GoMap.mem_iff_lookup, hnodes]
  have hunique : ∀ name node, UniqueFallback parseIP nodes' name node ↔
      UniqueFallback parseIP nodesInCluster name node := by
    intro name node
    simp only [UniqueFallback, hmem]
  have hcontested : ∀ name node, Contested parseIP nodes' hca' name node ↔
      Contested parseIP nodesInCluster hca name node := by
    intro name node
    simp only [Contested, MatchesNode, hhca, hmem, hunique]
  cases hlook : hca.lookup id with
  | none =>
    rw [lookup_resolveNodeNames_eq, lookup_resolveNodeNames_eq, hhca, hlook]
    rfl
  | some name =>
    have hlook' : hca'.lookup id = some name := by rw [hhca, hlook]
    have hcases := lookup_resolveNodeNames parseIP hset' hlook'
    simp only [hmem, hunique, hcontested] at hcases
    rcases lookup_resolveNodeNames parseIP hset hlook with ⟨node, hname, hun, hfree, h⟩ | ⟨hall, h⟩
    · rcases hcases with ⟨node', -, hun', -, h'⟩ | ⟨hall', -⟩
      · rw [h, h', hun.2.2 node' hun'.1 hun'.2.1]
      · exact absurd (hall' node hname hun) hfree
    · rcases hcases with ⟨node', hname, hun', hfree', -⟩ | ⟨-, h'⟩
      · exact absurd (hall node' hname hun') hfree'
      · rw [h, h']

/-- **Host names are resolved without ambiguity**: in every order of the maps alike, exact matches
are kept, adapters on one node have one name, and another name goes to a node exactly if that is the
only one with its short name and no adapter with another name matches it. -/
theorem resolveNodeNames_unambiguous (hset : IsSet nodesInCluster) (hca : GoMap String String) :
    (∀ hca' nodes', (∀ id, hca'.lookup id = hca.lookup id) →
      (∀ node, nodes'.lookup node = nodesInCluster.lookup node) →
      ∀ id, (resolveNodeNames parseIP nodes' hca').lookup id =
        (resolveNodeNames parseIP nodesInCluster hca).lookup id) ∧
    (∀ id, id ∈ resolveNodeNames parseIP nodesInCluster hca ↔ id ∈ hca) ∧
    (∀ id name, hca.lookup id = some name → name ∈ nodesInCluster →
      (resolveNodeNames parseIP nodesInCluster hca).lookup id = some name) ∧
    (∀ id id' node, node ∈ nodesInCluster →
      (resolveNodeNames parseIP nodesInCluster hca).lookup id = some node →
      (resolveNodeNames parseIP nodesInCluster hca).lookup id' = some node →
        hca.lookup id = hca.lookup id') ∧
    ∀ id name node, hca.lookup id = some name → name ∉ nodesInCluster → node ∈ nodesInCluster →
      ((resolveNodeNames parseIP nodesInCluster hca).lookup id = some node ↔
        UniqueFallback parseIP nodesInCluster name node ∧ ∀ id' name', hca.lookup id' = some name' →
          name' ≠ name → ¬ MatchesNode parseIP nodesInCluster name' node) := by
  refine ⟨fun hca' nodes' hhca hnodes => lookup_resolveNodeNames_congr hset hhca hnodes,
    fun id => ?_, fun id name h hname => ?_,
    fun id id' node hnode h h' => lookup_eq_of_same_node hset hnode h h',
      fun id name node h hname hnode => ?_⟩
  · rw [GoMap.mem_iff_lookup, GoMap.mem_iff_lookup]
    constructor
    · rintro ⟨node, hnode⟩
      exact exists_of_lookup_resolveNodeNames hnode
    · rintro ⟨name, hname⟩
      rcases lookup_resolveNodeNames parseIP hset hname with ⟨node, -, -, -, h⟩ | ⟨-, h⟩
      · exact ⟨node, h⟩
      · exact ⟨name, h⟩
  · rcases lookup_resolveNodeNames parseIP hset h with ⟨node, hnot, -⟩ | ⟨-, hlook⟩
    · exact absurd hname hnot
    · exact hlook
  · rw [lookup_eq_some_node_iff hset h hname hnode, Contested]
    push Not
    rfl

end Resolve

/-- Two adapters that report the short name of a node. -/
theorem shortName_resolved :
    (resolveNodeNames (fun _ => false) ((∅ : GoMap String Bool).insert "node-1.lab" true)
      (((∅ : GoMap String String).insert "H-2" "node-1").insert "H-1" "node-1")).lookup "H-1" =
        some "node-1.lab" := by
  have hmem : ∀ node, node ∈ (∅ : GoMap String Bool).insert "node-1.lab" true ↔
      node = "node-1.lab" := by
    intro node
    rw [AList.mem_insert, or_iff_left (AList.notMem_empty node)]
  have hset : IsSet ((∅ : GoMap String Bool).insert "node-1.lab" true) := by
    intro node present h
    rw [GoMap.lookup_insert_eq_ite] at h
    split_ifs at h
    · exact (Option.some.inj h).symm
    · exact absurd h (by simp)
  have hname : "node-1" ∉ (∅ : GoMap String Bool).insert "node-1.lab" true := by
    rw [hmem]
    decide
  refine ((resolveNodeNames_unambiguous hset _).2.2.2.2 "H-1" "node-1" "node-1.lab"
    (AList.lookup_insert _) hname
    ((hmem _).mpr rfl)).mpr ⟨⟨(hmem _).mpr rfl, ⟨by decide, Or.inl (by decide)⟩,
      fun other hother _ => (hmem other).mp hother⟩, ?_⟩
  intro id' name' hlook hne
  rw [GoMap.lookup_insert_eq_ite, GoMap.lookup_insert_eq_ite] at hlook
  split_ifs at hlook
  · exact absurd (Option.some.inj hlook).symm hne
  · exact absurd (Option.some.inj hlook).symm hne
  · exact absurd hlook (by simp)

end Topograph.Ib

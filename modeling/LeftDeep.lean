import LeftDeep.Main
import LeftDeep.Format.Table
import LeftDeep.Proofs.Plan.Placement
import LeftDeep.Proofs.Plan.QueryGraph
import LeftDeep.Proofs.Search.Bellman
import LeftDeep.Proofs.Search.Optimality
import LeftDeep.Proofs.Search.Overflow
import LeftDeep.Proofs.Plan.Meaning
import LeftDeep.Proofs.Result
import LeftDeep.Proofs.Workload.Tables
import LeftDeep.Proofs.Workload.Preparation
import LeftDeep.Proofs.Plan.Resolution
import LeftDeep.Proofs.Search.Failure
import LeftDeep.Proofs.Workload.Consistency
import LeftDeep.Proofs.Double.Truncation
import LeftDeep.Proofs.Workload.Estimates
import LeftDeep.Proofs.Workload.Relevance
import LeftDeep.Proofs.Search.GreedyRule
import LeftDeep.Proofs.Search.Cumulative
import LeftDeep.Proofs.Search.Extension
import LeftDeep.Proofs.Checked.Plan
import LeftDeep.Proofs.Plan.Defects
import LeftDeep.Proofs.Plan.Tree
import LeftDeep.Proofs.Format.RoundTrip
import LeftDeep.Proofs.Catalog.Numbered
import LeftDeep.Proofs.Catalog.Requests
import LeftDeep.Proofs.Catalog.Maps
import LeftDeep.Proofs.Workload.Conditions
import LeftDeep.Proofs.Workload.Acceptance
import LeftDeep.Proofs.Double.Nearest
import LeftDeep.Proofs.Estimate.Inequality
import LeftDeep.Proofs.Estimate.Filter

import ListQuery.LogSettings
import ListQuery.Plan
import ListQuery.Registry.Outline
import ListQuery.Proofs.Condition.EchoLevels
import ListQuery.Proofs.Condition.RangeForms
import ListQuery.Proofs.Condition.Rearranged
import ListQuery.Proofs.Plan.Browsing
import ListQuery.Proofs.Plan.LinkAnswers
import ListQuery.Proofs.Plan.Meaning
import ListQuery.Proofs.Predicate.BoundValues
import ListQuery.Proofs.Predicate.SqlReadsBack
import ListQuery.Proofs.Predicate.Whitelist
import ListQuery.Proofs.Request.LongForms
import ListQuery.Proofs.Condition.Compositional
import ListQuery.Proofs.Predicate.LiteralPatterns
import ListQuery.Proofs.Condition.Alternatives
import ListQuery.Proofs.Condition.IntervalGrammar
import ListQuery.Proofs.Condition.Blame
import ListQuery.Proofs.Condition.OperatorSpelling
import ListQuery.Proofs.Condition.RangeOrder
import ListQuery.Proofs.Paging.Normalised
import ListQuery.Proofs.Request.PagingStyle
import ListQuery.Proofs.Plan.CurrentLink
import ListQuery.Proofs.Registry.Assembled
import ListQuery.Proofs.Paging.Neighbours
import ListQuery.Proofs.Request.LinkNumbers
import ListQuery.Proofs.Request.Overlaid
import ListQuery.Proofs.Request.LastValues
import ListQuery.Proofs.Condition.Conjunction
import ListQuery.Proofs.Predicate.ColumnReferences

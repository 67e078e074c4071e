import Finops.Base.Run
import Finops.Base.Calendar
import Finops.Base.HighWater
import Finops.Base.Text
import Finops.Base.Dict
import Finops.Base.KeepFirst
import Finops.Base.Batch
import Finops.Base.Numerics
import Finops.Base.Significant
import Finops.Base.Amount
import Finops.Base.Floats
import Finops.Base.Grouping
import Finops.Base.Ranking
import Finops.Base.Apportion
import Finops.Base.Block
import Finops.Base.Draws
import Finops.Attribution.Models
import Finops.Attribution.Tags
import Finops.Attribution.Resolution
import Finops.Attribution.Periods
import Finops.Attribution.Engine
import Finops.Attribution.Rules
import Finops.Attribution.Split
import Finops.Attribution.Ledger
import Finops.Attribution.Remainders
import Finops.Attribution.Fair
import Finops.Attribution.Precision
import Finops.Attribution.Passes
import Finops.Attribution.Children
import Finops.Attribution.Traces
import Finops.Attribution.Keys
import Finops.Attribution.Accepted
import Finops.Attribution.Order
import Finops.Attribution.Completion
import Finops.Attribution.Closing
import Finops.Attribution.Concurrency
import Finops.Attribution.Rerun
import Finops.Attribution.Queries
import Finops.Attribution.Grouped
import Finops.Attribution.Timeseries
import Finops.Attribution.Unattributed
import Finops.Attribution.Audit
import Finops.Attribution.Forecast
import Finops.Attribution.BreachDate
import Finops.Attribution.Verdict
import Finops.Attribution.Monotone
import Finops.Collectors.Base
import Finops.Collectors.ExactlyOnce
import Finops.Collectors.Counters
import Finops.Collectors.LitellmSpend
import Finops.Collectors.Watermark
import Finops.Collectors.Draining
import Finops.Collectors.Isolation
import Finops.Collectors.Mirror
import Finops.Collectors.Runner
import Finops.Collectors.Simulated
import Finops.Collectors.Mocks
import Finops.Collectors.Hourly
import Finops.Alerting.State
import Finops.Alerting.Redis
import Finops.Alerting.Months
import Finops.Api.Budgets
import Finops.Api.Interleaved
import Finops.Api.Histories
import Finops.Api.Integrity
import Finops.Api.Costs
import Finops.Api.Agreement
import Finops.Api.Change
import Finops.Alerting.Evaluator
import Finops.Alerting.Thresholds
import Finops.Alerting.Drivers
import Finops.Alerting.Failures
import Finops.Api.Forecasts
import Finops.Alerting.Metrics
import Finops.Alerting.Slack
import Finops.Alerting.Notices
import Finops.Alerting.Delivery
import Finops.Alerting.Escalation
import Finops.Alerting.Workers
import Finops.Alerting.Suppression
import Finops.Alerting.Races
import Finops.Demo.Traffic
import Finops.Demo.Workloads
import Finops.Demo.Plans
import Finops.Demo.Pipeline
import Finops.Demo.Simulation

import ReinvestingPool.PoolText
import ReinvestingPool.Positions
import ReinvestingPool.Quotes
import ReinvestingPool.Swaps
import ReinvestingPool.Proofs.ExactQuotients
import ReinvestingPool.Proofs.ExactRoots
import ReinvestingPool.Proofs.RestPrices
import ReinvestingPool.Proofs.ActiveLiquidity
import ReinvestingPool.Proofs.Batches
import ReinvestingPool.Proofs.Deposits
import ReinvestingPool.Proofs.PoolHistories
import ReinvestingPool.Proofs.RunCrossings
import ReinvestingPool.Proofs.CrossedTicks
import ReinvestingPool.Proofs.GrowthBelow
import ReinvestingPool.Proofs.StepExchanges
import ReinvestingPool.Proofs.LastSteps
import ReinvestingPool.Proofs.AscendingQuotes
import ReinvestingPool.Proofs.RunFailures
import ReinvestingPool.Proofs.FilledAmounts
import ReinvestingPool.Proofs.MintedSupply
import ReinvestingPool.Proofs.IndexInsertions
import ReinvestingPool.Proofs.CoherentPools
import ReinvestingPool.Proofs.SteppedStates
import ReinvestingPool.Proofs.SwellingSales
import ReinvestingPool.Proofs.QuoteRefusals
import ReinvestingPool.Proofs.LegSigns
import ReinvestingPool.Proofs.FilledPrefixes
import ReinvestingPool.Proofs.InsertedAmounts
import ReinvestingPool.Proofs.AlikePools
import ReinvestingPool.Proofs.DistantPositions
import ReinvestingPool.Proofs.BuiltIndexes
import ReinvestingPool.Proofs.PositionSums
import ReinvestingPool.Proofs.Terminations
import ReinvestingPool.Proofs.Divisions
import ReinvestingPool.Proofs.StepSpans
import ReinvestingPool.Proofs.FreePurchases
import ReinvestingPool.Proofs.QuotientRefusals
import ReinvestingPool.Proofs.PoolReadings
import ReinvestingPool.Proofs.PriceTicks
import ReinvestingPool.Proofs.StepProducts
import ReinvestingPool.Proofs.AcceptedIndexes
import ReinvestingPool.Proofs.BlockSeconds
import ReinvestingPool.Proofs.MintedShares
import ReinvestingPool.Proofs.UnrefusedSales
import ReinvestingPool.Proofs.ReversedCrossings
import ReinvestingPool.Proofs.RefusedDeposits
import ReinvestingPool.Proofs.StepRoundings
import ReinvestingPool.Proofs.HalvingGuesses
import ReinvestingPool.Proofs.EnclosedRoots
import ReinvestingPool.Proofs.ToleratedLimits
